/-
# What a walk through the dependents finds

`Walk.visit` is bounded by fuel and folded over lists.  `Visits` is the same walk without the
bound: one constructor for a name that the walk has come to before, and one for a name that is new.
The fuel that `Walk.visitAll` starts with is always enough (`visits_visitAll`), so all that is said
of the walk here is said of `Visits`, by induction on it:

* what the walk comes to is what its starting points lead to, no more and no less
  (`mem_seen_visitAll_iff`);
* a validator is done when all its dependents are, unless validators depend on themselves by way
  of others (`Visits.dependentsLater`).
-/
import Mathlib.Logic.Relation
import ScriptBundle.Build.Order
import ScriptBundle.Proofs.NameMap

namespace ScriptBundle.ValidatorSet

open Relation (TransGen ReflTransGen)

variable {s : ValidatorSet} {name dep : String}

/-! ## 1. Dependencies -/

/-- A validator embeds the hash of another one. -/
def DependsOn (s : ValidatorSet) (name dep : String) : Prop :=
  ∃ v, s.validators.get? name = some v ∧ dep ∈ v.hashDependencies ∧ dep ≠ name

theorem dependsOn_iff : s.DependsOn name dep ↔
    ∃ v, s.validators.get? name = some v ∧ dep ∈ v.externalDependencies name := by
  simp [DependsOn, Validator.externalDependencies]

theorem DependsOn.mem_names (h : s.DependsOn name dep) : name ∈ s.validators.names := by
  obtain ⟨v, hv, -⟩ := h
  exact NameMap.mem_names_iff.mpr ⟨v, hv⟩

theorem mem_dependents_iff : name ∈ s.dependents dep ↔ s.DependsOn name dep := by
  simp only [dependents, dependsOn_iff, NameMap.get?_eq_some_iff, List.mem_flatMap, List.mem_map,
    List.mem_filter, decide_eq_true_eq]
  constructor
  · rintro ⟨⟨n, v⟩, hmem, _, ⟨hdep, rfl⟩, rfl⟩
    exact ⟨v, hmem, hdep⟩
  · rintro ⟨v, hmem, hdep⟩
    exact ⟨(name, v), hmem, dep, ⟨hdep, rfl⟩, rfl⟩

namespace Walk

/-! ## 2. The walk without its fuel -/

/-- A walk goes through several validators and through all that they lead to. -/
inductive Visits (s : ValidatorSet) : Walk → List String → Walk → Prop
  | nil (w : Walk) : Visits s w [] w
  | seen {w w' : Walk} {name : String} {rest : List String} (hseen : name ∈ w.seen)
      (hrest : Visits s w rest w') : Visits s w (name :: rest) w'
  | new {w w₁ w' : Walk} {name : String} {rest : List String} (hnew : name ∉ w.seen)
      (hdeps : Visits s { w with seen := name :: w.seen } (s.dependents name) w₁)
      (hrest : Visits s { w₁ with done := name :: w₁.done } rest w') :
      Visits s w (name :: rest) w'

variable {w w' : Walk} {names : List String}

/-- **What a walk adds.**  It gets done with exactly the validators that it newly comes to. -/
theorem Visits.added (h : Visits s w names w') :
    ∃ fresh, w'.done = fresh ++ w.done ∧ w'.seen.Perm (fresh ++ w.seen) := by
  induction h with
  | nil w => exact ⟨[], rfl, .refl _⟩
  | seen _ _ ih => exact ih
  | @new w w₁ w' name rest _ _ _ ihdeps ihrest =>
    obtain ⟨below, hdone, hseen⟩ := ihdeps
    obtain ⟨after, hdone', hseen'⟩ := ihrest
    refine ⟨after ++ name :: below, ?_, ?_⟩
    · rw [hdone', hdone, List.append_assoc, List.cons_append]
    · have hmiddle : w₁.seen.Perm (name :: below ++ w.seen) := hseen.trans List.perm_middle
      rw [List.append_assoc]
      exact hseen'.trans (hmiddle.append_left after)

theorem Visits.seen_mono (h : Visits s w names w') {n : String} (hn : n ∈ w.seen) :
    n ∈ w'.seen := by
  obtain ⟨fresh, -, hseen⟩ := h.added
  exact hseen.mem_iff.mpr (List.mem_append_right _ hn)

/-- What a walk has left open was open before. -/
theorem Visits.opened (h : Visits s w names w') {n : String} (hn : n ∈ w'.seen)
    (hopen : n ∉ w'.done) : n ∈ w.seen ∧ n ∉ w.done := by
  obtain ⟨fresh, hdone, hseen⟩ := h.added
  rw [hdone, List.mem_append, not_or] at hopen
  exact ⟨(List.mem_append.mp (hseen.mem_iff.mp hn)).resolve_left hopen.1, hopen.2⟩

/-- How many validators of the set the walk has not come to. -/
def unseen (s : ValidatorSet) (w : Walk) : Nat :=
  s.validators.names.countP (· ∉ w.seen)

theorem unseen_le_of_visits (h : Visits s w names w') : unseen s w' ≤ unseen s w := by
  refine List.countP_mono_left fun n _ hn => ?_
  simp only [decide_eq_true_eq] at hn ⊢
  exact fun hseen => hn (h.seen_mono hseen)

theorem unseen_lt_of_new (hmem : name ∈ s.validators.names) (hnew : name ∉ w.seen) :
    unseen s { w with seen := name :: w.seen } < unseen s w := by
  obtain ⟨before, after, hnames⟩ := List.append_of_mem hmem
  have hle : ∀ l : List String,
      l.countP (· ∉ name :: w.seen) ≤ l.countP (· ∉ w.seen) := by
    refine fun l => List.countP_mono_left fun n _ hn => ?_
    simp only [decide_eq_true_eq] at hn ⊢
    exact fun hseen => hn (List.mem_cons_of_mem name hseen)
  have hbefore := hle before
  have hafter := hle after
  simp only [unseen, hnames, List.countP_append, List.countP_cons, List.mem_cons_self,
    not_true_eq_false, decide_false, decide_true, hnew, not_false_eq_true]
  simp only [Bool.false_eq_true, if_true, if_false]
  omega

/-- **The fuel suffices.**  Every validator that the walk newly comes to is one fewer to come to. -/
theorem visits_foldl (fuel : Nat) : ∀ (names : List String) (w : Walk), unseen s w < fuel →
    (∀ n ∈ names, n ∈ s.validators.names) →
      Visits s w names (names.foldl (visit s fuel) w) := by
  induction fuel with
  | zero => exact fun _ _ h _ => absurd h (Nat.not_lt_zero _)
  | succ fuel ihfuel =>
    intro names
    induction names with
    | nil => exact fun w _ _ => .nil w
    | cons name rest ihrest =>
      intro w hfuel hnames
      obtain ⟨hname, hrest⟩ := List.forall_mem_cons.mp hnames
      rw [List.foldl_cons, visit]
      by_cases hseen : name ∈ w.seen
      · rw [if_pos (List.contains_iff_mem.mpr hseen)]
        exact .seen hseen (ihrest w hfuel hrest)
      · rw [if_neg fun h => hseen (List.contains_iff_mem.mp h)]
        have hlt := unseen_lt_of_new hname hseen
        have hdeps := ihfuel (s.dependents name) { w with seen := name :: w.seen } (by omega)
          fun n hn => (mem_dependents_iff.mp hn).mem_names
        have hle := unseen_le_of_visits hdeps
        refine .new hseen hdeps (ihrest _ ?_ hrest)
        exact Nat.lt_of_le_of_lt hle (by omega)

theorem visits_visitAll (hnames : ∀ n ∈ names, n ∈ s.validators.names) :
    Visits s start names (visitAll s names) := by
  refine visits_foldl _ names start ?_ hnames
  have hle : unseen s start ≤ s.validators.names.length := List.countP_le_length
  have hsize : s.validators.names.length = s.size := List.length_map _
  omega

/-! ## 3. What a walk comes to -/

theorem Visits.mem_seen (h : Visits s w names w') : ∀ n ∈ names, n ∈ w'.seen := by
  induction h with
  | nil => exact fun _ h => absurd h List.not_mem_nil
  | seen hseen hrest ih => exact List.forall_mem_cons.mpr ⟨hrest.seen_mono hseen, ih⟩
  | new _ hdeps hrest _ ih =>
    exact List.forall_mem_cons.mpr ⟨hrest.seen_mono (hdeps.seen_mono List.mem_cons_self), ih⟩

/-- Being done with a validator means having come to its dependents. -/
theorem Visits.closed (h : Visits s w names w')
    (hw : ∀ n ∈ w.done, ∀ b ∈ s.dependents n, b ∈ w.seen) :
    ∀ n ∈ w'.done, ∀ b ∈ s.dependents n, b ∈ w'.seen := by
  induction h with
  | nil => exact hw
  | seen _ _ ih => exact ih hw
  | new _ hdeps _ ihdeps ihrest =>
    refine ihrest (List.forall_mem_cons.mpr ⟨hdeps.mem_seen, ihdeps fun n hn b hb => ?_⟩)
    exact List.mem_cons_of_mem _ (hw n hn b hb)

/-- Whatever a walk comes to depends on one of its starting points. -/
theorem Visits.sound (h : Visits s w names w') :
    ∀ n ∈ w'.seen, n ∈ w.seen ∨ ∃ root ∈ names, ReflTransGen s.DependsOn n root := by
  induction h with
  | nil => exact fun n hn => .inl hn
  | seen _ _ ih =>
    intro n hn
    rcases ih n hn with hn | ⟨root, hroot, hpath⟩
    · exact .inl hn
    · exact .inr ⟨root, List.mem_cons_of_mem _ hroot, hpath⟩
  | @new w w₁ w' name rest _ _ _ ihdeps ihrest =>
    intro n hn
    rcases ihrest n hn with hn | ⟨root, hroot, hpath⟩
    · rcases ihdeps n hn with hn | ⟨root, hroot, hpath⟩
      · rcases List.mem_cons.mp hn with rfl | hn
        · exact .inr ⟨n, List.mem_cons_self, .refl⟩
        · exact .inl hn
      · exact .inr ⟨name, List.mem_cons_self, hpath.tail (mem_dependents_iff.mp hroot)⟩
    · exact .inr ⟨root, List.mem_cons_of_mem _ hroot, hpath⟩

/-- A walk that starts afresh is done with all that it has come to. -/
theorem done_perm_seen (h : Visits s start names w) : w.seen.Perm w.done := by
  obtain ⟨fresh, hdone, hseen⟩ := h.added
  rw [hdone]
  exact hseen

/-- **What a walk comes to** is what depends on one of its starting points, by way of others or
directly, and the starting points themselves. -/
theorem mem_seen_visitAll_iff (hnames : ∀ n ∈ names, n ∈ s.validators.names) {n : String} :
    n ∈ (visitAll s names).seen ↔ ∃ root ∈ names, ReflTransGen s.DependsOn n root := by
  have h := visits_visitAll hnames
  constructor
  · exact fun hn => (h.sound n hn).resolve_left List.not_mem_nil
  · rintro ⟨root, hroot, hpath⟩
    induction hpath using ReflTransGen.head_induction_on with
    | refl => exact h.mem_seen root hroot
    | head hdep _ ih =>
      exact h.closed (fun _ h => absurd h List.not_mem_nil) _ ((done_perm_seen h).mem_iff.mp ih) _
        (mem_dependents_iff.mpr hdep)

/-- A walk comes to nothing twice. -/
theorem Visits.seen_nodup (h : Visits s w names w') (hw : w.seen.Nodup) : w'.seen.Nodup := by
  induction h with
  | nil => exact hw
  | seen _ _ ih => exact ih hw
  | new hnew _ _ ihdeps ihrest => exact ihrest (ihdeps (List.nodup_cons.mpr ⟨hnew, hw⟩))

/-! ## 4. The order in which a walk is done -/

/-- The dependents of each name of a list are further on in it. -/
def DependentsLater (s : ValidatorSet) : List String → Prop
  | [] => True
  | name :: rest => (∀ b ∈ s.dependents name, b ∈ rest) ∧ DependentsLater s rest

/-- **Dependents are done first.**  A dependent that is still open when its dependency is done would
be one that the walk is on its way through, so that it depends on itself.  `hopen` is what being on
the way means: the names to come depend on all that is open. -/
theorem Visits.dependentsLater (hacyclic : ∀ n, ¬ TransGen s.DependsOn n n)
    (h : Visits s w names w')
    (hopen : ∀ o ∈ w.seen, o ∉ w.done → ∀ n ∈ names, ReflTransGen s.DependsOn n o)
    (hw : DependentsLater s w.done) : DependentsLater s w'.done := by
  induction h with
  | nil => exact hw
  | seen _ _ ih => exact ih (fun o ho hnd n hn => hopen o ho hnd n (List.mem_cons_of_mem _ hn)) hw
  | @new w w₁ w' name rest hnew hdeps _ ihdeps ihrest =>
    have hname : ∀ o ∈ w.seen, o ∉ w.done → ReflTransGen s.DependsOn name o :=
      fun o ho hnd => hopen o ho hnd name List.mem_cons_self
    have hbelow : DependentsLater s w₁.done := by
      refine ihdeps (fun o ho hnd n hn => ?_) hw
      have hdep := mem_dependents_iff.mp hn
      rcases List.mem_cons.mp ho with rfl | ho
      · exact .single hdep
      · exact .head hdep (hname o ho hnd)
    have hdone : ∀ b ∈ s.dependents name, b ∈ w₁.done := by
      intro b hb
      by_contra hnd
      have hdep := mem_dependents_iff.mp hb
      obtain ⟨ho, hnd⟩ := hdeps.opened (hdeps.mem_seen b hb) hnd
      rcases List.mem_cons.mp ho with rfl | ho
      · exact hacyclic b (.single hdep)
      · exact hacyclic b (.head' hdep (hname b ho hnd))
    refine ihrest (fun o ho hnd n hn => ?_) ⟨hdone, hbelow⟩
    rw [List.mem_cons, not_or] at hnd
    obtain ⟨ho, hnd'⟩ := hdeps.opened ho hnd.2
    exact hopen o ((List.mem_cons.mp ho).resolve_left hnd.1) hnd' n (List.mem_cons_of_mem _ hn)

end Walk

end ScriptBundle.ValidatorSet

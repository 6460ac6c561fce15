/-
# The order of compilation is exact

A set whose declarations hold together has an order of compilation exactly if no validator depends
on itself by way of others, and the complaint about one that has none names those validators and no
others (`compilationOrder_exact`).

There are two halves.  What `inOrder` accepts rules cycles out, because a validator comes later than
everything it depends on (`idxOf_lt_of_inOrder`).  Without cycles the walk is done with dependents
first, which is what `inOrder` asks for (`inOrder_of_acyclic`).

The complaint follows from what a walk comes to that starts with one validator (`leadsTo_iff`).
Validators that lead to each other have one component (`component_eq`), so components share nothing,
and a validator is on a cycle exactly if it is not alone in its component (`onCycle_iff`).
-/
import Mathlib.Data.List.Sort
import Mathlib.Data.String.Basic
import ScriptBundle.Build
import ScriptBundle.Proofs.Build.Walk

namespace ScriptBundle.ValidatorSet

open Relation (TransGen ReflTransGen)

variable {s : ValidatorSet} {name dep : String}

/-! ## 1. What the declarations promise -/

/-- Nothing is wrong with a declaration that says of which form the datum is, where one is carried,
and names only modules and validators of the set. -/
theorem flaw?_eq_none_iff {v : Validator} : s.flaw? name v = none ↔
    ¬ (v.purpose = .spending ∧ v.datum = none) ∧ (∀ m ∈ v.modules, m ∈ s.modules.names) ∧
      ∀ d ∈ v.hashDependencies, d ∈ s.validators.names := by
  rw [← NameMap.find?_unknown_eq_none_iff, ← NameMap.find?_unknown_eq_none_iff, flaw?]
  split
  · rename_i hdatum
    exact ⟨fun h => (by cases h), fun h => absurd hdatum h.1⟩
  · rename_i hdatum
    cases v.modules.find? fun m => !s.modules.contains m with
    | some m => exact ⟨fun h => (by cases h), fun h => (by cases h.2.1)⟩
    | none =>
      rw [Option.map_eq_none_iff]
      exact ⟨fun h => ⟨hdatum, rfl, h⟩, fun h => h.2.2⟩

theorem check_eq_ok_iff : s.check = .ok () ↔
    ∀ name v, s.validators.get? name = some v → s.flaw? name v = none := by
  simp only [NameMap.get?_eq_some_iff]
  constructor
  · intro h name v hv
    unfold check at h
    split at h
    · cases h
    · rename_i hnone
      exact List.findSome?_eq_none_iff.mp hnone (name, v) hv
  · intro h
    unfold check
    split
    · rename_i flaw hflaw
      obtain ⟨e, he, hsome⟩ := List.exists_of_findSome?_eq_some hflaw
      cases (h e.1 e.2 he).symm.trans hsome
    · rfl

/-- Only validators of the set are depended on. -/
theorem mem_names_of_check (h : s.check = .ok ()) (hdep : s.DependsOn name dep) :
    dep ∈ s.validators.names := by
  obtain ⟨v, hv, hmem, -⟩ := hdep
  exact (flaw?_eq_none_iff.mp (check_eq_ok_iff.mp h name v hv)).2.2 dep hmem

theorem strayDependency?_eq_none_iff : s.strayDependency? = none ↔
    ∀ n d, s.DependsOn n d → d ∈ s.validators.names := by
  simp only [strayDependency?, List.findSome?_eq_none_iff, Option.map_eq_none_iff,
    List.find?_eq_none, Bool.not_eq_true, Bool.not_eq_false', NameMap.contains_iff, dependsOn_iff,
    NameMap.get?_eq_some_iff]
  constructor
  · rintro h n d ⟨v, hv, hd⟩
    exact h (n, v) hv d hd
  · rintro h ⟨n, v⟩ hv d hd
    exact h n d ⟨v, hv, hd⟩

theorem strayDependency?_of_check (h : s.check = .ok ()) : s.strayDependency? = none :=
  strayDependency?_eq_none_iff.mpr fun _ _ => mem_names_of_check h

/-! ## 2. Cycles -/

/-- A validator depends on itself by way of others. -/
def OnCycle (s : ValidatorSet) (name : String) : Prop := TransGen s.DependsOn name name

/-- No validator depends on itself by way of others. -/
def Acyclic (s : ValidatorSet) : Prop := ∀ name, ¬ s.OnCycle name

theorem OnCycle.mem_names (h : s.OnCycle name) : name ∈ s.validators.names := by
  obtain ⟨_, hdep, -⟩ := TransGen.head'_iff.mp h
  exact hdep.mem_names

/-- Two validators are the same or depend on each other. -/
def Together (s : ValidatorSet) (name other : String) : Prop :=
  ReflTransGen s.DependsOn name other ∧ ReflTransGen s.DependsOn other name

theorem Together.symm {other : String} (h : s.Together name other) : s.Together other name :=
  ⟨h.2, h.1⟩

theorem Together.trans {other third : String} (h : s.Together name other)
    (h' : s.Together other third) : s.Together name third :=
  ⟨h.1.trans h'.1, h'.2.trans h.2⟩

theorem leadsTo_iff {other : String} (hname : name ∈ s.validators.names) :
    s.leadsTo name other ↔ ReflTransGen s.DependsOn other name := by
  rw [leadsTo, List.contains_iff_mem,
    Walk.mem_seen_visitAll_iff (List.forall_mem_singleton.mpr hname)]
  simp only [List.mem_singleton, exists_eq_left]

theorem mem_component_iff {other : String} (hname : name ∈ s.validators.names) :
    other ∈ s.component name ↔ other ∈ s.validators.names ∧ s.Together name other := by
  rw [component, List.mem_filter, Bool.and_eq_true, leadsTo_iff hname]
  refine and_congr_right fun hother => ?_
  rw [leadsTo_iff hother]
  exact And.comm

/-- **Components.**  Validators that are together have one component. -/
theorem component_eq {other : String} (hname : name ∈ s.validators.names)
    (hother : other ∈ s.validators.names) (h : s.Together name other) :
    s.component name = s.component other := by
  refine List.filter_congr fun n hn => ?_
  have hmem : n ∈ s.component name ↔ n ∈ s.component other := by
    rw [mem_component_iff hname, mem_component_iff hother]
    exact and_congr_right fun _ => ⟨h.symm.trans, h.trans⟩
  rwa [component, component, List.mem_filter, List.mem_filter, and_iff_right hn, and_iff_right hn,
    ← Bool.eq_iff_iff] at hmem

theorem nodup_component (s : ValidatorSet) (name : String) : (s.component name).Nodup :=
  s.validators.names_nodup.filter _

/-- **Cycles.**  A validator is on a cycle if it is not alone in its component. -/
theorem onCycle_iff (hname : name ∈ s.validators.names) :
    s.OnCycle name ↔ 1 < (s.component name).length := by
  have hself : name ∈ s.component name := (mem_component_iff hname).mpr ⟨hname, .refl, .refl⟩
  constructor
  · intro h
    obtain ⟨d, hdep, hback⟩ := TransGen.head'_iff.mp h
    obtain ⟨_, -, -, hne⟩ := id hdep
    have hd : d ∈ s.component name := by
      refine (mem_component_iff hname).mpr ⟨?_, .single hdep, hback⟩
      rcases ReflTransGen.cases_head hback with rfl | ⟨_, hnext, -⟩
      · exact absurd rfl hne
      · exact hnext.mem_names
    by_contra hlength
    obtain ⟨only, honly⟩ := List.length_eq_one_iff.mp
      (Nat.le_antisymm (Nat.not_lt.mp hlength) (List.length_pos_of_mem hself))
    rw [honly, List.mem_singleton] at hself hd
    exact hne (hd.trans hself.symm)
  · intro hlength
    by_contra hcycle
    have halone : ∀ other ∈ s.component name, other = name := by
      intro other hother
      obtain ⟨-, hpath, hback⟩ := (mem_component_iff hname).mp hother
      rcases ReflTransGen.cases_head hpath with rfl | ⟨d, hdep, hrest⟩
      · rfl
      · exact absurd (TransGen.head' hdep (hrest.trans hback)) hcycle
    have hnodup := nodup_component s name
    match hcomponent : s.component name, hlength with
    | first :: second :: rest, _ =>
      rw [hcomponent] at halone hnodup
      have hfirst := halone first List.mem_cons_self
      have hsecond := halone second (List.mem_cons_of_mem _ List.mem_cons_self)
      exact (List.nodup_cons.mp hnodup).1 (hfirst.trans hsecond.symm ▸ List.mem_cons_self)

theorem mem_components_iff {names : List String} :
    names ∈ s.components ↔ ∃ n ∈ s.validators.names, s.component n = names := by
  rw [components]
  simp only [List.mem_map, List.mem_filter, decide_eq_true_eq]
  constructor
  · rintro ⟨n, ⟨hn, -⟩, rfl⟩
    exact ⟨n, hn, rfl⟩
  · rintro ⟨n, hn, rfl⟩
    -- The first of the component has the same component, and is listed there.
    have hself : n ∈ s.component n := (mem_component_iff hn).mpr ⟨hn, .refl, .refl⟩
    obtain ⟨first, rest, hcomponent⟩ := List.exists_cons_of_ne_nil (List.ne_nil_of_mem hself)
    obtain ⟨hfirst, htogether⟩ := (mem_component_iff hn).mp (hcomponent ▸ List.mem_cons_self)
    have heq := component_eq hn hfirst htogether
    exact ⟨first, ⟨hfirst, by rw [← heq, hcomponent, List.head?_cons]⟩, heq.symm⟩

/-- No validator is in two components. -/
theorem disjoint_components (s : ValidatorSet) : s.components.Pairwise List.Disjoint := by
  refine List.pairwise_map.mpr ((s.validators.names_nodup.filter _).imp_of_mem ?_)
  intro a b ha hb hne n hna hnb
  rw [List.mem_filter, decide_eq_true_eq] at ha hb
  obtain ⟨-, hna⟩ := (mem_component_iff ha.1).mp hna
  obtain ⟨-, hnb⟩ := (mem_component_iff hb.1).mp hnb
  have heq := component_eq ha.1 hb.1 (hna.trans hnb.symm)
  rw [heq, hb.2] at ha
  exact hne (Option.some.inj ha.2).symm

/-- **The complaint** is about the validators on cycles. -/
theorem mem_cycleMembers_iff : name ∈ s.cycleMembers ↔ s.OnCycle name := by
  rw [cycleMembers, List.mem_mergeSort]
  simp only [List.mem_flatten, List.mem_filter, decide_eq_true_eq, mem_components_iff]
  constructor
  · rintro ⟨_, ⟨⟨n, hn, rfl⟩, hlength⟩, hmem⟩
    obtain ⟨hname, htogether⟩ := (mem_component_iff hn).mp hmem
    rwa [onCycle_iff hname, ← component_eq hn hname htogether]
  · intro h
    have hname := h.mem_names
    refine ⟨_, ⟨⟨name, hname, rfl⟩, (onCycle_iff hname).mp h⟩, ?_⟩
    exact (mem_component_iff hname).mpr ⟨hname, .refl, .refl⟩

theorem cycleMembers_sorted (s : ValidatorSet) : s.cycleMembers.Pairwise (· < ·) := by
  have hnodup : (s.components.filter fun names => 1 < names.length).flatten.Nodup := by
    refine List.nodup_flatten.mpr ⟨fun names hnames => ?_, (disjoint_components s).filter _⟩
    obtain ⟨n, -, rfl⟩ := mem_components_iff.mp (List.mem_filter.mp hnames).1
    exact nodup_component s n
  exact (List.sortedLE_mergeSort.sortedLT_of_nodup
    ((List.mergeSort_perm _ _).nodup_iff.mpr hnodup)).pairwise

/-! ## 3. Orders -/

theorem inOrder_cons_iff {before rest : List String} : s.inOrder before (name :: rest) ↔
    (name ∈ s.validators.names ∧ ∀ d, s.DependsOn name d → d ∈ before) ∧
      s.inOrder (name :: before) rest := by
  rw [inOrder, Bool.and_eq_true]
  refine and_congr_left fun _ => ?_
  simp only [dependsOn_iff, NameMap.mem_names_iff]
  cases s.validators.get? name with
  | none => simp
  | some v => simp

/-- **What is in order.**  Each name is of the set, and all it depends on stands before it. -/
theorem inOrder_iff {names before : List String} : s.inOrder before names ↔
    ∀ pre n post, names = pre ++ n :: post →
      n ∈ s.validators.names ∧ ∀ d, s.DependsOn n d → d ∈ before ∨ d ∈ pre := by
  induction names generalizing before with
  | nil =>
    refine ⟨fun _ pre n post h => ?_, fun _ => rfl⟩
    exact absurd h.symm (List.append_ne_nil_of_right_ne_nil pre (List.cons_ne_nil n post))
  | cons name rest ih =>
    rw [inOrder_cons_iff, ih]
    constructor
    · rintro ⟨hname, hrest⟩ pre n post h
      cases pre with
      | nil =>
        cases h
        exact ⟨hname.1, fun d hd => .inl (hname.2 d hd)⟩
      | cons p pre =>
        cases h
        obtain ⟨hn, hdeps⟩ := hrest pre n post rfl
        refine ⟨hn, fun d hd => ?_⟩
        rcases hdeps d hd with hd | hd
        · rcases List.mem_cons.mp hd with rfl | hd
          · exact .inr List.mem_cons_self
          · exact .inl hd
        · exact .inr (List.mem_cons_of_mem _ hd)
    · intro h
      obtain ⟨hname, hdeps⟩ := h [] name rest rfl
      refine ⟨⟨hname, fun d hd => (hdeps d hd).resolve_right List.not_mem_nil⟩, ?_⟩
      rintro pre n post rfl
      obtain ⟨hn, hdeps⟩ := h (name :: pre) n post rfl
      refine ⟨hn, fun d hd => ?_⟩
      rcases hdeps d hd with hd | hd
      · exact .inl (List.mem_cons_of_mem _ hd)
      · rcases List.mem_cons.mp hd with rfl | hd
        · exact .inl List.mem_cons_self
        · exact .inr hd

/-- A validator that is in order comes strictly later than all it depends on. -/
theorem idxOf_lt_of_inOrder {order : List String} (h : s.inOrder [] order)
    (hdep : s.DependsOn name dep) (hmem : name ∈ order) : order.idxOf dep < order.idxOf name := by
  obtain ⟨pre, post, rfl, hfirst⟩ := List.eq_append_cons_of_mem hmem
  obtain ⟨-, hdeps⟩ := inOrder_iff.mp h pre name post rfl
  have hbefore : dep ∈ pre := (hdeps dep hdep).resolve_left List.not_mem_nil
  rw [List.idxOf_append_of_mem hbefore, List.idxOf_append_of_notMem hfirst, List.idxOf_cons_self]
  exact List.idxOf_lt_length_of_mem hbefore

/-- Validators are in order if each comes strictly later than all it depends on. -/
theorem inOrder_of_idxOf_lt {order : List String} (hperm : order.Perm s.validators.names)
    (h : ∀ n d, s.DependsOn n d → order.idxOf d < order.idxOf n) : s.inOrder [] order := by
  refine inOrder_iff.mpr ?_
  rintro pre n post rfl
  refine ⟨hperm.mem_iff.mp (List.mem_append_right _ List.mem_cons_self), fun d hd => .inr ?_⟩
  have hlt := h n d hd
  have hn : n ∉ pre := fun hn => by
    have hnd := hperm.nodup_iff.mpr s.validators.names_nodup
    exact (List.nodup_append.mp hnd).2.2 n hn n List.mem_cons_self rfl
  rw [List.idxOf_append_of_notMem hn, List.idxOf_cons_self, Nat.add_zero] at hlt
  by_contra hd'
  rw [List.idxOf_append_of_notMem hd'] at hlt
  omega

theorem acyclic_of_inOrder {order : List String} (h : s.inOrder [] order)
    (hall : ∀ n ∈ s.validators.names, n ∈ order) : s.Acyclic := by
  have hlt : ∀ a b, TransGen s.DependsOn a b → order.idxOf b < order.idxOf a := by
    intro a b hpath
    induction hpath using TransGen.head_induction_on with
    | single hdep => exact idxOf_lt_of_inOrder h hdep (hall _ hdep.mem_names)
    | head hdep _ ih => exact ih.trans (idxOf_lt_of_inOrder h hdep (hall _ hdep.mem_names))
  exact fun name hcycle => Nat.lt_irrefl _ (hlt name name hcycle)

theorem dependentsLater_append {pre post : List String}
    (h : Walk.DependentsLater s (pre ++ post)) : Walk.DependentsLater s post := by
  induction pre with
  | nil => exact h
  | cons _ _ ih => exact ih h.2

/-- The order that a walk over the whole set proposes has every validator once. -/
theorem order_perm_names (s : ValidatorSet) :
    (Walk.visitAll s s.validators.names).done.Perm s.validators.names := by
  have hwalk := Walk.visits_visitAll (s := s) fun _ h => h
  have hseen := Walk.done_perm_seen hwalk
  refine hseen.symm.trans ((List.perm_ext_iff_of_nodup (hwalk.seen_nodup List.nodup_nil)
    s.validators.names_nodup).mpr fun n => ⟨fun hn => ?_, hwalk.mem_seen n⟩)
  obtain ⟨root, hroot, hpath⟩ := (hwalk.sound n hn).resolve_left List.not_mem_nil
  rcases ReflTransGen.cases_head hpath with rfl | ⟨_, hdep, -⟩
  · exact hroot
  · exact hdep.mem_names

/-- Where all validators are in order, none depends on one that is not in the set. -/
theorem strayDependency?_of_inOrder {order : List String} (h : s.inOrder [] order)
    (hall : ∀ n ∈ s.validators.names, n ∈ order) : s.strayDependency? = none := by
  refine strayDependency?_eq_none_iff.mpr fun n d hdep => ?_
  obtain ⟨pre, post, rfl⟩ := List.append_of_mem (hall n hdep.mem_names)
  obtain ⟨-, hdeps⟩ := inOrder_iff.mp h pre n post rfl
  have hd : d ∈ pre := (hdeps d hdep).resolve_left List.not_mem_nil
  obtain ⟨front, back, rfl⟩ := List.append_of_mem hd
  exact (inOrder_iff.mp h front d (back ++ n :: post) (by simp)).1

theorem inOrder_of_acyclic (hs : s.check = .ok ()) (h : s.Acyclic) :
    s.inOrder [] (Walk.visitAll s s.validators.names).done := by
  have hperm := order_perm_names s
  have hlater : Walk.DependentsLater s (Walk.visitAll s s.validators.names).done :=
    (Walk.visits_visitAll fun _ h => h).dependentsLater h
      (fun o ho => absurd ho List.not_mem_nil) trivial
  generalize (Walk.visitAll s s.validators.names).done = order at hperm hlater ⊢
  refine inOrder_iff.mpr ?_
  rintro pre n post rfl
  refine ⟨hperm.mem_iff.mp (List.mem_append_right _ List.mem_cons_self), fun d hd => .inr ?_⟩
  have hmem : d ∈ pre ++ n :: post := hperm.mem_iff.mpr (mem_names_of_check hs hd)
  rcases List.mem_append.mp hmem with hpre | hpost
  · exact hpre
  · rcases List.mem_cons.mp hpost with rfl | hpost
    · exact absurd (.single hd) (h d)
    -- A dependency that came after `n` would have `n` after itself, and `n` is there once.
    · obtain ⟨between, after, rfl⟩ := List.append_of_mem hpost
      have hlater' : Walk.DependentsLater s ((pre ++ n :: between) ++ d :: after) := by
        rwa [List.append_assoc]
      have hn : n ∈ after := (dependentsLater_append hlater').1 n (mem_dependents_iff.mpr hd)
      have hnd := hperm.nodup_iff.mpr s.validators.names_nodup
      have hnd' := (List.nodup_cons.mp (List.nodup_append.mp hnd).2.1).1
      exact absurd (List.mem_append_right _ (List.mem_cons_of_mem _ hn)) hnd'

theorem hashOrder_of_acyclic (hs : s.check = .ok ()) (h : s.Acyclic) :
    s.hashOrder = .ok (Walk.visitAll s s.validators.names).done :=
  if_pos (inOrder_of_acyclic hs h)

theorem hashOrder_of_not_acyclic (h : ¬ s.Acyclic) :
    s.hashOrder = .error s.cycleMembers := by
  refine if_neg fun hin => h (acyclic_of_inOrder hin fun n hn => ?_)
  exact (order_perm_names s).mem_iff.mpr hn

end ValidatorSet

open ValidatorSet

/-! ## 4. The order of compilation -/

theorem order_of_hashOrder {set : ValidatorSet} {order : List String}
    (h : set.hashOrder = .ok order) :
    order.Perm set.validators.names ∧ set.inOrder [] order := by
  unfold hashOrder at h
  dsimp only at h
  split at h
  · rename_i hin
    cases h
    exact ⟨order_perm_names set, hin⟩
  · cases h

/-- Where an order is found, no dependency is stray. -/
theorem compilationOrder_eq_ok_iff {set : ValidatorSet} {order : List String} :
    compilationOrder set = .ok order ↔ set.hashOrder = .ok order := by
  unfold compilationOrder
  constructor
  · intro h
    split at h
    · cases h
    · split at h <;> cases h
      assumption
  · intro h
    obtain ⟨hperm, hin⟩ := order_of_hashOrder h
    rw [strayDependency?_of_inOrder hin fun n hn => hperm.mem_iff.mpr hn, h]

/-- An order of compilation has every validator once, each after all it depends on. -/
theorem order_of_compilationOrder {set : ValidatorSet} {order : List String}
    (h : compilationOrder set = .ok order) :
    order.Perm set.validators.names ∧ set.inOrder [] order :=
  order_of_hashOrder (compilationOrder_eq_ok_iff.mp h)

/-- **Orders and cycles.**  A set whose declarations hold together has an order of compilation
exactly if it is acyclic.  The order has every validator once, and every dependency strictly before
its dependents.  The complaint about a set that is not acyclic lists the validators on cycles, all
of them and no others, in increasing order of names. -/
theorem compilationOrder_exact {set : ValidatorSet} (hset : set.check = .ok ()) :
    ((∃ order, compilationOrder set = .ok order) ↔ set.Acyclic) ∧
    (∀ order, compilationOrder set = .ok order →
      order.Nodup ∧ (∀ n, n ∈ order ↔ n ∈ set.validators.names) ∧
        ∀ n d, set.DependsOn n d → order.idxOf d < order.idxOf n) ∧
    (¬ set.Acyclic → ∃ members, compilationOrder set = .error (.dependencyCycle members) ∧
      members.Pairwise (· < ·) ∧ members ≠ [] ∧ ∀ n, n ∈ members ↔ set.OnCycle n) := by
  have hok : set.Acyclic →
      compilationOrder set = .ok (Walk.visitAll set set.validators.names).done := by
    intro h
    exact compilationOrder_eq_ok_iff.mpr (hashOrder_of_acyclic hset h)
  have herror : ¬ set.Acyclic → compilationOrder set =
      .error (.dependencyCycle set.cycleMembers) := by
    intro h
    rw [compilationOrder, strayDependency?_of_check hset, hashOrder_of_not_acyclic h]
  have hacyclic : ∀ order, compilationOrder set = .ok order → set.Acyclic := by
    intro order h
    by_contra hcycle
    rw [herror hcycle] at h
    cases h
  refine ⟨⟨fun ⟨order, h⟩ => hacyclic order h, fun h => ⟨_, hok h⟩⟩, ?_, ?_⟩
  · intro order h
    have hac := hacyclic order h
    rw [hok hac] at h
    cases h
    have hperm := order_perm_names set
    refine ⟨hperm.nodup_iff.mpr set.validators.names_nodup, fun n => hperm.mem_iff, ?_⟩
    intro n d hdep
    exact idxOf_lt_of_inOrder (inOrder_of_acyclic hset hac) hdep
      (hperm.mem_iff.mpr hdep.mem_names)
  · intro h
    refine ⟨_, herror h, cycleMembers_sorted set, ?_, fun n => mem_cycleMembers_iff⟩
    obtain ⟨n, hn⟩ := not_forall_not.mp h
    exact List.ne_nil_of_mem (mem_cycleMembers_iff.mpr hn)

namespace Example

/-- A minting policy that embeds the hashes of some validators. -/
def minting (hashDependencies : List String) : Validator :=
  ⟨.minting, "", [], hashDependencies, false, .primitive .int, none⟩

/-- Two policies that embed each other's hashes, one that embeds theirs and its own, and one that
the first of them embeds. -/
def market : ValidatorSet where
  validators :=
    ⟨[("auction", minting ["vault", "fee"]), ("fee", minting []),
      ("report", minting ["report", "auction", "auction"]), ("vault", minting ["auction"])],
      by decide⟩
  modules := .empty

theorem compilationOrder_exact_market :
    market.check = .ok () ∧
      compilationOrder market = .error (.dependencyCycle ["auction", "vault"]) ∧
      ∀ n, n ∈ ["auction", "vault"] ↔ market.OnCycle n := by
  have hmembers : market.cycleMembers = ["auction", "vault"] := by
    change ["auction", "vault"].mergeSort (· ≤ ·) = _
    exact List.mergeSort_eq_self _ (by decide)
  have hrun : compilationOrder market = .error (.dependencyCycle ["auction", "vault"]) := by
    rw [← hmembers]
    rfl
  obtain ⟨hok, -, hcycle⟩ := compilationOrder_exact (rfl : market.check = .ok ())
  have hnot : ¬ market.Acyclic := by
    intro h
    obtain ⟨order, horder⟩ := hok.mpr h
    rw [hrun] at horder
    cases horder
  obtain ⟨members, hmembers, -, -, hexact⟩ := hcycle hnot
  rw [hrun] at hmembers
  cases hmembers
  exact ⟨rfl, hrun, hexact⟩

end Example

end ScriptBundle

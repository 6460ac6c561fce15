/-
# The arguments that a function's program takes

A call gives its arguments by name and in any order; the program takes them by position.  The layout
walks over the declared arguments and takes each one's value out of what is given, and the last of
what is left moves to where the value was.  So the order in which arguments are given changes while
they are still looked for.

Only the order changes, though: what was taken and what is left are together what was there
(`swapRemove_perm`).  As long as no name is given twice, what is found under a name therefore does
not depend on what was taken before (`mem_take_rest_iff`), and what stands at the position of an
argument is said by `AtPosition` without any order.

`layout_exact` says which calls have a layout, and which one.
-/
import Mathlib.Data.List.Forall2
import Mathlib.Data.List.Nodup
import Mathlib.Data.List.Perm.Basic
import ScriptBundle.Build.LineScript
import ScriptBundle.Build.UserFunc
import ScriptBundle.Proofs.Outcome

namespace ScriptBundle.UserFunc

variable {P : Type} {f : UserFunc P} {call : Call} {network : Network} {name n : String}
  {v : Value} {given rest : List (String × Value)} {a : Argument} {d : Data} {ds : List Data}

/-! ## 1. Taking a value out of what is given -/

/-- Taking an item out and moving the last one to its place leaves everything else there. -/
theorem swapRemove_perm {α : Type} (items : List α) (i : Fin items.length) :
    (items[i] :: swapRemove items i).Perm items := by
  have hne : items ≠ [] := List.ne_nil_of_length_pos i.pos
  have hset : items.set i (items.getLast hne) ≠ [] := by simpa using hne
  -- Whether the last item is itself set or not, it ends the list that is cut.
  have hlast : (items.set i (items.getLast hne)).getLast hset = items.getLast hne := by
    simp only [List.getLast_eq_getElem, List.getElem_set, List.length_set, ite_self]
  have hcut : (items.getLast hne :: swapRemove items i).Perm
      (items.getLast hne :: items.eraseIdx i) := by
    have hswap : swapRemove items i = (items.set i (items.getLast hne)).dropLast := by
      rw [swapRemove, List.getLast?_eq_some_getLast hne]
    rw [hswap]
    refine .trans ?_ (List.set_perm_cons_eraseIdx i.isLt _)
    refine (List.perm_append_singleton _ _).symm.trans ?_
    conv_rhs => rw [← List.dropLast_concat_getLast hset, hlast]
  exact ((List.perm_cons _).mp hcut |>.cons _).trans (List.getElem_cons_eraseIdx_perm i.isLt)

/-- Either a value is taken, and with it everything that was given is there; or the name is not
given, and nothing is taken. -/
theorem take_cases (name : String) (given : List (String × Value)) :
    (∃ v rest, take name given = (some v, rest) ∧ ((name, v) :: rest).Perm given) ∨
      take name given = (none, given) ∧ ∀ v, (name, v) ∉ given := by
  rw [take]
  cases hfind : given.findFinIdx? fun e => e.1 = name with
  | some i =>
    have hname : given[i].1 = name := by
      simpa using (List.findFinIdx?_eq_some_iff.mp hfind).1
    refine .inl ⟨given[i].2, swapRemove given i, rfl, ?_⟩
    rw [← hname]
    exact swapRemove_perm given i
  | none =>
    refine .inr ⟨rfl, fun v hmem => ?_⟩
    simpa using List.findFinIdx?_eq_none_iff.mp hfind (name, v) hmem

/-- What is left of arguments with different names has different names, and not the name taken. -/
theorem nodup_of_perm_cons (hgiven : (given.map (·.1)).Nodup)
    (hperm : ((name, v) :: rest).Perm given) :
    name ∉ rest.map (·.1) ∧ (rest.map (·.1)).Nodup :=
  List.nodup_cons.mp ((hperm.map _).nodup_iff.mpr hgiven)

/-- The value taken is the one that is given. -/
theorem take_value_iff (hgiven : (given.map (·.1)).Nodup) :
    (take name given).1 = some v ↔ (name, v) ∈ given := by
  rcases take_cases name given with ⟨w, rest, htake, hperm⟩ | ⟨htake, hnone⟩
  · rw [htake, ← hperm.mem_iff, List.mem_cons, Prod.mk.injEq, Option.some.injEq]
    have hrest : (name, v) ∉ rest := fun hmem =>
      (nodup_of_perm_cons hgiven hperm).1 (List.mem_map_of_mem hmem)
    constructor
    · rintro rfl
      exact .inl ⟨rfl, rfl⟩
    · rintro (⟨-, rfl⟩ | hmem)
      · rfl
      · exact absurd hmem hrest
  · rw [htake]
    exact iff_of_false (by simp) (hnone v)

/-- The values of the other names are left. -/
theorem mem_take_rest_iff (hne : n ≠ name) : (n, v) ∈ (take name given).2 ↔ (n, v) ∈ given := by
  rcases take_cases name given with ⟨w, rest, htake, hperm⟩ | ⟨htake, -⟩
  · rw [htake, ← hperm.mem_iff, List.mem_cons, Prod.mk.injEq]
    exact ⟨.inr, fun h => h.resolve_left fun same => hne same.1⟩
  · rw [htake]

/-- What is left has different names if what was given has. -/
theorem nodup_take_rest (hgiven : (given.map (·.1)).Nodup) :
    ((take name given).2.map (·.1)).Nodup := by
  rcases take_cases name given with ⟨w, rest, htake, hperm⟩ | ⟨htake, -⟩
  · rw [htake]
    exact (nodup_of_perm_cons hgiven hperm).2
  · rw [htake]
    exact hgiven

/-! ## 2. The data at the positions of the arguments -/

/-- What stands at the position of a declared argument: the data of its value, wrapped as present if
it may be left out, and marked as absent if it is. -/
inductive AtPosition (network : Network) (given : List (String × Value)) (a : Argument) :
    Data → Prop
  | required {v : Value} {d : Data} (hrequired : a.isOptional = false)
      (hgiven : (a.name, v) ∈ given) (hencodes : Codec.encode network a.schema v = .ok d) :
      AtPosition network given a d
  | present {v : Value} {d : Data} (hoptional : a.isOptional = true)
      (hgiven : (a.name, v) ∈ given) (hencodes : Codec.encode network a.schema v = .ok d) :
      AtPosition network given a (.constr 0 [d])
  | absent (hoptional : a.isOptional = true) (hleftOut : ∀ v, (a.name, v) ∉ given) :
      AtPosition network given a (.constr 1 [])

/-- What stands at a position depends on nothing but the values given under the argument's name. -/
theorem AtPosition.congr {given' : List (String × Value)}
    (hsame : ∀ v, (a.name, v) ∈ given ↔ (a.name, v) ∈ given') :
    AtPosition network given a d ↔ AtPosition network given' a d := by
  suffices hmono : ∀ {g g' : List (String × Value)},
      (∀ v, (a.name, v) ∈ g ↔ (a.name, v) ∈ g') → AtPosition network g a d →
        AtPosition network g' a d from
    ⟨hmono hsame, hmono fun v => (hsame v).symm⟩
  intro g g' hsame h
  cases h with
  | required hrequired hgiven hencodes => exact .required hrequired ((hsame _).mp hgiven) hencodes
  | present hoptional hgiven hencodes => exact .present hoptional ((hsame _).mp hgiven) hencodes
  | absent hoptional hleftOut =>
    exact .absent hoptional fun v hmem => hleftOut v ((hsame v).mpr hmem)

/-- Something stands at a position if what has to be given is, and what is given encodes. -/
theorem exists_atPosition_iff (hgiven : (given.map (·.1)).Nodup) :
    (∃ d, AtPosition network given a d) ↔
      (a.isOptional = false → ∃ v, (a.name, v) ∈ given) ∧
        ∀ v, (a.name, v) ∈ given → ∃ d, Codec.encode network a.schema v = .ok d := by
  have honly : ∀ {v w}, (a.name, v) ∈ given → (a.name, w) ∈ given → v = w :=
    fun hv hw => congrArg Prod.snd (List.inj_on_of_nodup_map hgiven hv hw rfl)
  constructor
  · rintro ⟨d, h⟩
    cases h with
    | required _ hv hencodes => exact ⟨fun _ => ⟨_, hv⟩, fun w hw => ⟨_, honly hv hw ▸ hencodes⟩⟩
    | present _ hv hencodes => exact ⟨fun _ => ⟨_, hv⟩, fun w hw => ⟨_, honly hv hw ▸ hencodes⟩⟩
    | absent hoptional hleftOut =>
      refine ⟨fun hrequired => ?_, fun v hv => absurd hv (hleftOut v)⟩
      cases hoptional.symm.trans hrequired
  · rintro ⟨hsupplied, hencodes⟩
    by_cases hgiven : ∃ v, (a.name, v) ∈ given
    · obtain ⟨v, hv⟩ := hgiven
      obtain ⟨d, hd⟩ := hencodes v hv
      cases hoptional : a.isOptional with
      | true => exact ⟨_, .present hoptional hv hd⟩
      | false => exact ⟨_, .required hoptional hv hd⟩
    · cases hoptional : a.isOptional with
      | true => exact ⟨_, .absent hoptional (not_exists.mp hgiven)⟩
      | false => exact absurd (hsupplied hoptional) hgiven

/-- The data made of what was taken for an argument is what stands at its position. -/
theorem argumentData_eq_ok_iff (hgiven : (given.map (·.1)).Nodup) :
    argumentData network a (take a.name given).1 = .ok d ↔ AtPosition network given a d := by
  cases htake : (take a.name given).1 with
  | some v =>
    have hmem : (a.name, v) ∈ given := (take_value_iff hgiven).mp htake
    have honly : ∀ {w}, (a.name, w) ∈ given → w = v := fun {w} hw =>
      Option.some.inj (((take_value_iff hgiven).mpr hw).symm.trans htake)
    constructor
    · intro h
      rw [argumentData] at h
      split at h
      · rename_i d' hencodes
        cases h
        cases hoptional : a.isOptional with
        | true => exact .present hoptional hmem hencodes
        | false => exact .required hoptional hmem hencodes
      · cases h
    · intro h
      cases h with
      | required hrequired hw hencodes =>
        cases honly hw
        simp [argumentData, hencodes, hrequired]
      | present hoptional hw hencodes =>
        cases honly hw
        simp [argumentData, hencodes, hoptional, Codec.optional]
      | absent _ hleftOut => exact absurd hmem (hleftOut v)
  | none =>
    have hnone : ∀ v, (a.name, v) ∉ given := fun v hmem => by
      rw [(take_value_iff hgiven).mpr hmem] at htake
      cases htake
    constructor
    · intro h
      rw [argumentData] at h
      split at h
      · rename_i hoptional
        cases h
        exact .absent hoptional hnone
      · cases h
    · intro h
      cases h with
      | required _ hw _ => exact absurd hw (hnone _)
      | present _ hw _ => exact absurd hw (hnone _)
      | absent hoptional _ => simp [argumentData, hoptional, Codec.optional]

/-- The walk over the declared arguments puts one item at each one's position.  What is given
shrinks and changes its order on the way; what is left under the names to come does not change. -/
theorem argumentsData_eq_ok_iff {arguments : List Argument}
    (hdeclared : (arguments.map (·.name)).Nodup) (hgiven : (given.map (·.1)).Nodup) :
    argumentsData network arguments given = .ok ds ↔
      List.Forall₂ (AtPosition network given) arguments ds := by
  induction arguments generalizing given ds with
  | nil => rw [List.forall₂_nil_left_iff, argumentsData, Except.ok.injEq, eq_comm]
  | cons a arguments ih =>
    obtain ⟨hname, hrest⟩ := List.nodup_cons.mp hdeclared
    have hleft : ∀ b ∈ arguments, ∀ d,
        AtPosition network (take a.name given).2 b d ↔ AtPosition network given b d :=
      fun b hb d => AtPosition.congr fun v =>
        mem_take_rest_iff fun same => hname (List.mem_map.mpr ⟨b, hb, same⟩)
    have hwalk : ∀ ds, List.Forall₂ (AtPosition network (take a.name given).2) arguments ds ↔
        List.Forall₂ (AtPosition network given) arguments ds := by
      intro ds
      simp only [List.forall₂_iff_get]
      exact and_congr_right fun _ => forall₃_congr fun i hi _ =>
        hleft _ (List.get_mem _ _) _
    rw [argumentsData, List.forall₂_cons_left_iff]
    simp only [bind_eq_ok_iff, pure_eq_ok_iff, argumentData_eq_ok_iff hgiven,
      ih hrest (nodup_take_rest hgiven), hwalk]
    constructor
    · rintro ⟨d, hd, ds', hds, rfl⟩
      exact ⟨d, ds', hd, hds, rfl⟩
    · rintro ⟨d, ds', hd, hds, rfl⟩
      exact ⟨d, hd, ds', hds, rfl⟩

/-! ## 3. The names that are given -/

theorem repeated?_eq_none_iff {before names : List String} :
    repeated? before names = none ↔ names.Nodup ∧ ∀ name ∈ names, name ∉ before := by
  induction names generalizing before with
  | nil => simp [repeated?]
  | cons name names ih =>
    rw [repeated?]
    split
    · rename_i hbefore
      exact iff_of_false (by simp) fun h =>
        h.2 name List.mem_cons_self (List.contains_iff_mem.mp hbefore)
    · rename_i hnew
      simp only [List.contains_eq_mem, decide_eq_true_eq] at hnew
      simp only [ih, List.nodup_cons, List.mem_cons, not_or, forall_eq_or_imp]
      constructor
      · rintro ⟨hnodup, hbefore⟩
        exact ⟨⟨fun hmem => (hbefore name hmem).1 rfl, hnodup⟩, hnew, fun n hn => (hbefore n hn).2⟩
      · rintro ⟨⟨hname, hnodup⟩, -, hbefore⟩
        exact ⟨hnodup, fun n hn => ⟨fun same => hname (same ▸ hn), hbefore n hn⟩⟩

/-- The names pass if all are declared and none is given twice. -/
theorem checkNames_eq_ok_iff {declared names : List String} :
    checkNames declared names = .ok () ↔ (∀ name ∈ names, name ∈ declared) ∧ names.Nodup := by
  rw [checkNames]
  split
  · rename_i name hstray
    refine iff_of_false (by simp) fun h => ?_
    have hnot : name ∉ declared := by simpa using List.find?_some hstray
    exact hnot (h.1 name (List.mem_of_find?_eq_some hstray))
  · rename_i hall
    have hknown : ∀ name ∈ names, name ∈ declared := by
      simpa using List.find?_eq_none.mp hall
    cases hrepeated : repeated? [] names with
    | some name =>
      refine iff_of_false (by simp) fun h => ?_
      rw [repeated?_eq_none_iff.mpr ⟨h.2, fun _ _ => List.not_mem_nil⟩] at hrepeated
      cases hrepeated
    | none => exact iff_of_true rfl ⟨hknown, (repeated?_eq_none_iff.mp hrepeated).1⟩

/-! ## 4. The layout -/

/-- The calls that have a layout. -/
structure Accepts (f : UserFunc P) (call : Call) : Prop where
  distinct : (call.arguments.map (·.1)).Nodup
  declared : ∀ e ∈ call.arguments, ∃ a ∈ f.signature.arguments, a.name = e.1
  supplied : ∀ a ∈ f.signature.arguments, a.isOptional = false →
    ∃ v, (a.name, v) ∈ call.arguments
  encodes : ∀ a ∈ f.signature.arguments, ∀ v, (a.name, v) ∈ call.arguments →
    ∃ d, Codec.encode f.network a.schema v = .ok d
  context : f.signature.requiresContext = true → ∃ d, call.context = some d
  current : f.signature.requiresCurrentValidator = true →
    ∃ name index, call.currentValidator = some name ∧ f.indices.get? name = some index

/-- The data for the context: the context itself, or nothing if none is required. -/
inductive ContextPart (f : UserFunc P) (call : Call) : List Data → Prop
  | required {d : Data} (hrequired : f.signature.requiresContext = true)
      (hcontext : call.context = some d) : ContextPart f call [d]
  | unused (hunused : f.signature.requiresContext = false) : ContextPart f call []

/-- The data for the current validator: its index, or nothing if none is required. -/
inductive CurrentPart (f : UserFunc P) (call : Call) : List Data → Prop
  | required {name : String} {index : Nat}
      (hrequired : f.signature.requiresCurrentValidator = true)
      (hcurrent : call.currentValidator = some name) (hindex : f.indices.get? name = some index) :
      CurrentPart f call [.constr (UInt64.ofNat index) []]
  | unused (hunused : f.signature.requiresCurrentValidator = false) : CurrentPart f call []

/-- One item for each declared argument in the order of the declaration, then the context, then the
current validator. -/
def LaidOut (f : UserFunc P) (call : Call) (ds : List Data) : Prop :=
  ∃ arguments context current, ds = arguments ++ context ++ current ∧
    List.Forall₂ (AtPosition f.network call.arguments) f.signature.arguments arguments ∧
    ContextPart f call context ∧ CurrentPart f call current

theorem contextData_eq_ok_iff : f.contextData call = .ok ds ↔ ContextPart f call ds := by
  constructor
  · intro h
    unfold contextData at h
    split at h
    · rename_i hrequired
      split at h
      · rename_i d hcontext
        cases h
        exact .required hrequired hcontext
      · cases h
    · rename_i hunused
      cases h
      exact .unused (Bool.eq_false_iff.mpr hunused)
  · intro h
    cases h with
    | required hrequired hcontext => simp [contextData, hrequired, hcontext]
    | unused hunused => simp [contextData, hunused]

theorem currentData_eq_ok_iff : f.currentData call = .ok ds ↔ CurrentPart f call ds := by
  constructor
  · intro h
    unfold currentData at h
    split at h
    · rename_i hrequired
      split at h
      · rename_i name hcurrent
        split at h
        · rename_i index hindex
          cases h
          exact .required hrequired hcurrent hindex
        · cases h
      · cases h
    · rename_i hunused
      cases h
      exact .unused (Bool.eq_false_iff.mpr hunused)
  · intro h
    cases h with
    | required hrequired hcurrent hindex => simp [currentData, hrequired, hcurrent, hindex]
    | unused hunused => simp [currentData, hunused]

theorem exists_contextPart_iff : (∃ ds, ContextPart f call ds) ↔
    (f.signature.requiresContext = true → ∃ d, call.context = some d) := by
  constructor
  · rintro ⟨ds, h⟩ hrequired
    cases h with
    | required _ hcontext => exact ⟨_, hcontext⟩
    | unused hunused => cases hunused.symm.trans hrequired
  · intro h
    cases hrequired : f.signature.requiresContext with
    | true =>
      obtain ⟨d, hd⟩ := h hrequired
      exact ⟨_, .required hrequired hd⟩
    | false => exact ⟨_, .unused hrequired⟩

theorem exists_currentPart_iff : (∃ ds, CurrentPart f call ds) ↔
    (f.signature.requiresCurrentValidator = true →
      ∃ name index, call.currentValidator = some name ∧ f.indices.get? name = some index) := by
  constructor
  · rintro ⟨ds, h⟩ hrequired
    cases h with
    | required _ hcurrent hindex => exact ⟨_, _, hcurrent, hindex⟩
    | unused hunused => cases hunused.symm.trans hrequired
  · intro h
    cases hrequired : f.signature.requiresCurrentValidator with
    | true =>
      obtain ⟨name, index, hname, hindex⟩ := h hrequired
      exact ⟨_, .required hrequired hname hindex⟩
    | false => exact ⟨_, .unused hrequired⟩

/-- A layout is of names that pass, and has its three parts. -/
theorem layout_eq_ok_iff (hdeclared : (f.signature.arguments.map (·.name)).Nodup) :
    f.layout call = .ok ds ↔
      ((∀ e ∈ call.arguments, ∃ a ∈ f.signature.arguments, a.name = e.1) ∧
        (call.arguments.map (·.1)).Nodup) ∧ f.LaidOut call ds := by
  have hnames : checkNames (f.signature.arguments.map (·.name)) (call.arguments.map (·.1)) =
        .ok () ↔
      (∀ e ∈ call.arguments, ∃ a ∈ f.signature.arguments, a.name = e.1) ∧
        (call.arguments.map (·.1)).Nodup := by
    rw [checkNames_eq_ok_iff, List.forall_mem_map]
    simp only [List.mem_map]
  rw [← hnames, layout, bind_eq_ok_iff]
  constructor
  · rintro ⟨⟨⟩, hpass, h⟩
    refine ⟨hpass, ?_⟩
    obtain ⟨arguments, harguments, h⟩ := bind_eq_ok_iff.mp h
    obtain ⟨context, hcontext, h⟩ := bind_eq_ok_iff.mp h
    obtain ⟨current, hcurrent, h⟩ := bind_eq_ok_iff.mp h
    exact ⟨arguments, context, current, (pure_eq_ok_iff.mp h).symm,
      (argumentsData_eq_ok_iff hdeclared (hnames.mp hpass).2).mp harguments,
      contextData_eq_ok_iff.mp hcontext, currentData_eq_ok_iff.mp hcurrent⟩
  · rintro ⟨hpass, arguments, context, current, rfl, harguments, hcontext, hcurrent⟩
    refine ⟨(), hpass, bind_eq_ok_iff.mpr ⟨arguments, ?_, bind_eq_ok_iff.mpr ⟨context, ?_,
      bind_eq_ok_iff.mpr ⟨current, ?_, rfl⟩⟩⟩⟩
    · exact (argumentsData_eq_ok_iff hdeclared (hnames.mp hpass).2).mpr harguments
    · exact contextData_eq_ok_iff.mpr hcontext
    · exact currentData_eq_ok_iff.mpr hcurrent

/-- Items can be put at all positions if one can be put at each. -/
theorem exists_forall₂ {α β : Type} {R : α → β → Prop} {items : List α}
    (h : ∀ a ∈ items, ∃ b, R a b) : ∃ bs, List.Forall₂ R items bs := by
  induction items with
  | nil => exact ⟨[], .nil⟩
  | cons a rest ih =>
    obtain ⟨⟨b, hb⟩, hrest⟩ := List.forall_mem_cons.mp h
    obtain ⟨bs, hbs⟩ := ih hrest
    exact ⟨b :: bs, .cons hb hbs⟩

/-- A call is accepted if its names pass and there is a layout that belongs to it. -/
theorem accepts_iff : f.Accepts call ↔
    ((∀ e ∈ call.arguments, ∃ a ∈ f.signature.arguments, a.name = e.1) ∧
      (call.arguments.map (·.1)).Nodup) ∧ ∃ ds, f.LaidOut call ds := by
  constructor
  · intro h
    obtain ⟨arguments, harguments⟩ := exists_forall₂ fun a ha =>
      (exists_atPosition_iff h.distinct).mpr ⟨h.supplied a ha, h.encodes a ha⟩
    obtain ⟨context, hcontext⟩ := exists_contextPart_iff.mpr h.context
    obtain ⟨current, hcurrent⟩ := exists_currentPart_iff.mpr h.current
    exact ⟨⟨h.declared, h.distinct⟩, _, arguments, context, current, rfl, harguments, hcontext,
      hcurrent⟩
  · rintro ⟨⟨hdeclared, hgiven⟩, _, arguments, context, current, rfl, harguments, hcontext,
      hcurrent⟩
    have hposition : ∀ a ∈ f.signature.arguments,
        ∃ d, AtPosition f.network call.arguments a d := by
      intro a ha
      obtain ⟨i, hi, rfl⟩ := List.getElem_of_mem ha
      exact ⟨_, harguments.get hi (harguments.length_eq ▸ hi)⟩
    exact {
      distinct := hgiven
      declared := hdeclared
      supplied := fun a ha => ((exists_atPosition_iff hgiven).mp (hposition a ha)).1
      encodes := fun a ha => ((exists_atPosition_iff hgiven).mp (hposition a ha)).2
      context := exists_contextPart_iff.mp ⟨_, hcontext⟩
      current := exists_currentPart_iff.mp ⟨_, hcurrent⟩ }

/-- A call is accepted exactly if it has the layout that belongs to it. -/
theorem layout_eq_ok_iff_accepts (hdeclared : (f.signature.arguments.map (·.name)).Nodup) :
    f.layout call = .ok ds ↔ f.Accepts call ∧ f.LaidOut call ds := by
  rw [layout_eq_ok_iff hdeclared, accepts_iff]
  exact ⟨fun h => ⟨⟨h.1, ds, h.2⟩, h.2⟩, fun h => ⟨h.1.1, h.2⟩⟩

theorem Accepts.reordered (h : f.Accepts call) (hperm : given.Perm call.arguments) :
    f.Accepts { call with arguments := given } where
  distinct := (hperm.map _).nodup_iff.mpr h.distinct
  declared := fun e he => h.declared e (hperm.mem_iff.mp he)
  supplied := fun a ha hrequired =>
    (h.supplied a ha hrequired).imp fun _ hv => hperm.mem_iff.mpr hv
  encodes := fun a ha v hv => h.encodes a ha v (hperm.mem_iff.mp hv)
  context := h.context
  current := h.current

theorem LaidOut.reordered (h : f.LaidOut call ds) (hperm : given.Perm call.arguments) :
    f.LaidOut { call with arguments := given } ds := by
  obtain ⟨arguments, context, current, rfl, harguments, hcontext, hcurrent⟩ := h
  refine ⟨arguments, context, current, rfl, harguments.imp fun _ _ h => ?_, ?_, ?_⟩
  · exact (AtPosition.congr fun v => hperm.mem_iff).mpr h
  · cases hcontext with
    | required hrequired hcontext => exact .required hrequired hcontext
    | unused hunused => exact .unused hunused
  · cases hcurrent with
    | required hrequired hcurrent hindex => exact .required hrequired hcurrent hindex
    | unused hunused => exact .unused hunused

/-- A call of a function whose arguments have different names has a layout exactly if it is
accepted.  The layout is the one that belongs to the call, and the same in whatever order the
arguments are given. -/
theorem layout_exact (f : UserFunc P) (hdeclared : (f.signature.arguments.map (·.name)).Nodup)
    (call : Call) :
    ((∃ ds, f.layout call = .ok ds) ↔ f.Accepts call) ∧
      (∀ ds, f.layout call = .ok ds ↔ f.Accepts call ∧ f.LaidOut call ds) ∧
      ∀ given, given.Perm call.arguments → ∀ ds,
        f.layout { call with arguments := given } = .ok ds ↔ f.layout call = .ok ds := by
  refine ⟨?_, fun ds => layout_eq_ok_iff_accepts hdeclared, fun given hperm ds => ?_⟩
  · simp only [layout_eq_ok_iff_accepts hdeclared, exists_and_left]
    exact and_iff_left_of_imp fun h => (accepts_iff.mp h).2
  · simp only [layout_eq_ok_iff_accepts hdeclared]
    constructor
    · rintro ⟨haccepts, hlaidOut⟩
      exact ⟨haccepts.reordered hperm.symm, hlaidOut.reordered hperm.symm⟩
    · rintro ⟨haccepts, hlaidOut⟩
      exact ⟨haccepts.reordered hperm, hlaidOut.reordered hperm⟩

namespace Example

/-- A function that is told whether to hurry, and whether it is watched if that is known. -/
def settle : UserFunc LineScript.Code where
  name := "settle"
  programs := ⟨⟨"sum"⟩, none⟩
  signature :=
    { arguments := [⟨"urgent", .primitive .bool, false⟩, ⟨"watched", .primitive .bool, true⟩]
      returns := none
      requiresContext := true
      requiresCurrentValidator := true }
  indices := .ofList [("mint", 0), ("pay", 1)]
  network := .testnet
  checksDivergence := false
  diagnostics := .none
  unoptimizedDiagnostics := .none

/-- What may be left out stands in the second place also if it is given first. -/
theorem layout_exact_settle :
    (settle.signature.arguments.map (·.name)).Nodup ∧
      settle.layout
          { arguments := [("watched", .bool false), ("urgent", .bool true)]
            context := some (.list [])
            currentValidator := some "pay" } =
        .ok [.constr 1 [], .constr 0 [.constr 0 []], .list [], .constr 1 []] :=
  ⟨by decide, ((layout_exact settle (by decide)
    { arguments := [("urgent", .bool true), ("watched", .bool false)]
      context := some (.list [])
      currentValidator := some "pay" }).2.2 _ (.swap _ _ _) _).mpr rfl⟩

end Example

end ScriptBundle.UserFunc

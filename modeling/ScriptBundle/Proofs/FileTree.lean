/-
# What making folders and writing files leaves as it is

Where a path leads depends on which places are folders, and on nothing else in a tree.  Neither
making a folder nor writing a file takes a folder away, so a path that leads somewhere goes on
leading there (`Keeps.resolve`).  Making a folder touches no file, whether it works or not
(`grown_makeFolder`).  Once it has worked it has nothing left to do (`makeFolder_again`), nor has it
where the folder was there before (`makeFolder_of_folder`), and once it has failed it fails in the
same way again (`makeFolder_failed`).  Writing a file changes what is read at the paths that lead to
its place, and at no other path (`read_put_file`).

A path to something in a folder leads to a place right behind that of the folder, however the path
of the folder is written (`resolve_join_eq_ok_iff`).
-/
import ScriptBundle.FileTree
import ScriptBundle.Proofs.Outcome

namespace ScriptBundle.FileTree

variable {t t' t'' : FileTree} {p q here : Place} {path name : String} {content : Bytes}

/-! ## 1. Places -/

@[simp] theorem node?_root (t : FileTree) : t.node? [] = some .folder := rfl

/-- What is found first among the places that are left when one is taken out. -/
theorem lookup_filter_ne {key key' : Nat × Place} (h : key' ≠ key)
    (nodes : List ((Nat × Place) × FileNode)) :
    (nodes.filter (·.1 ≠ key)).lookup key' = nodes.lookup key' := by
  induction nodes with
  | nil => rfl
  | cons e rest ih =>
    obtain ⟨first, n⟩ := e
    by_cases hfirst : first = key
    · have hother : (key' == first) = false := by simpa [hfirst] using h
      rw [List.filter_cons_of_neg (by simpa using hfirst), ih, List.lookup_cons, hother]
    · rw [List.filter_cons_of_pos (by simpa using hfirst), List.lookup_cons, List.lookup_cons, ih]

theorem node?_put (hp : p ≠ []) (n : FileNode) :
    (t.put p n).node? q = if q = p then some n else t.node? q := by
  unfold node? put clear
  by_cases hroot : q = []
  · have hne : q ≠ p := by
      rintro rfl
      exact hp hroot
    rw [if_pos hroot, if_neg hne, if_pos hroot]
  rw [if_neg hroot, if_neg hroot]
  by_cases hq : q = p
  · subst hq
    rw [if_pos rfl, List.lookup_cons_self]
  · have hkey : q.key ≠ p.key := fun h => hq (Place.key_inj.mp h)
    have hother : (q.key == p.key) = false := beq_eq_false_iff_ne.mpr hkey
    rw [if_neg hq, List.lookup_cons, hother]
    exact lookup_filter_ne hkey t.nodes

theorem checkFolder_eq_ok_iff : t.checkFolder p = .ok () ↔ t.node? p = some .folder := by
  unfold checkFolder
  split
  · rename_i h
    exact ⟨fun _ => h, fun _ => rfl⟩
  · rename_i h
    exact ⟨fun h' => (by cases h'), fun h' => (by rw [h] at h'; cases h')⟩
  · rename_i h
    exact ⟨fun h' => (by cases h'), fun h' => (by rw [h] at h'; cases h')⟩

/-! ## 2. Trees that keep their folders -/

/-- Every folder of a tree is a folder of the other, and they have the same bounds. -/
structure Keeps (t t' : FileTree) : Prop where
  limits : t'.limits = t.limits
  folder : ∀ {p}, t.node? p = some .folder → t'.node? p = some .folder

namespace Keeps

theorem refl (t : FileTree) : Keeps t t := ⟨rfl, id⟩

theorem trans (h : Keeps t t') (h' : Keeps t' t'') : Keeps t t'' :=
  ⟨h'.limits.trans h.limits, fun hp => h'.folder (h.folder hp)⟩

theorem hasName (h : Keeps t t') (name : String) : t'.hasName name = t.hasName name := by
  rw [FileTree.hasName, FileTree.hasName, h.limits]

theorem step (h : Keeps t t') (here : Place) (part : String) :
    t'.step here part = t.step here part := by
  rw [FileTree.step, FileTree.step, h.hasName]

theorem checkPath (h : Keeps t t') (path : String) : t'.checkPath path = t.checkPath path := by
  rw [FileTree.checkPath, FileTree.checkPath, hasPath, hasPath, h.limits]

theorem walk (h : Keeps t t') {parts : List String} (hwalk : t.walk here parts = .ok p) :
    t'.walk here parts = .ok p := by
  induction parts generalizing here with
  | nil => exact hwalk
  | cons part rest ih =>
    simp only [FileTree.walk, bind_eq_ok_iff] at hwalk ⊢
    obtain ⟨⟨⟩, hfolder, there, hstep, hrest⟩ := hwalk
    refine ⟨(), ?_, there, (h.step here part).trans hstep, ih hrest⟩
    exact checkFolder_eq_ok_iff.mpr (h.folder (checkFolder_eq_ok_iff.mp hfolder))

/-- A path that leads somewhere goes on leading there. -/
theorem resolve (h : Keeps t t') (hpath : t.resolve path = .ok p) : t'.resolve path = .ok p := by
  simp only [FileTree.resolve, bind_eq_ok_iff] at hpath ⊢
  obtain ⟨⟨⟩, hcheck, hwalk⟩ := hpath
  exact ⟨(), (h.checkPath path).trans hcheck, h.walk hwalk⟩

end Keeps

/-! ## 3. Making folders -/

/-- A tree with more folders: none is gone, and the files are the same. -/
structure Grown (t t' : FileTree) : Prop extends Keeps t t' where
  file : ∀ {p content}, t'.node? p = some (.file content) ↔ t.node? p = some (.file content)

theorem Grown.refl (t : FileTree) : Grown t t := ⟨.refl t, Iff.rfl⟩

theorem Grown.trans (h : Grown t t') (h' : Grown t' t'') : Grown t t'' :=
  ⟨h.toKeeps.trans h'.toKeeps, h'.file.trans h.file⟩

/-- A folder is made where nothing was. -/
theorem grown_put (h : t.node? p = none) : Grown t (t.put p .folder) := by
  have hroot : p ≠ [] := by
    rintro rfl
    cases h
  refine ⟨⟨rfl, fun {q} hq => ?_⟩, fun {q content} => ?_⟩
  · rw [node?_put hroot, hq, ite_self]
  · rw [node?_put hroot]
    split
    · rename_i hq
      rw [hq, h]
      exact ⟨fun h' => (by cases h'), fun h' => (by cases h')⟩
    · exact Iff.rfl

/-- Making one folder leaves a folder there, whether it had to be made or not. -/
theorem of_madeAt (h : t.madeAt p = .ok t') : Grown t t' ∧ t'.node? p = some .folder := by
  unfold madeAt at h
  split at h
  · rename_i hp
    cases h
    exact ⟨.refl t, hp⟩
  · cases h
  · rename_i hp
    cases h
    have hroot : p ≠ [] := by
      rintro rfl
      cases hp
    exact ⟨grown_put hp, by rw [node?_put hroot, if_pos rfl]⟩

theorem madeAt_of_folder (h : t.node? p = some .folder) : t.madeAt p = .ok t := by
  rw [madeAt, h]

theorem grown_makeAlong (t : FileTree) (here : Place) (parts : List String) :
    Grown t (t.makeAlong here parts).2 := by
  induction parts generalizing t here with
  | nil => exact .refl t
  | cons part rest ih =>
    rw [makeAlong]
    split
    · exact .refl t
    split
    · exact .refl t
    · rename_i hmade
      exact (of_madeAt hmade).1.trans (ih _ _)

/-- What has been made along a way is there, and so in any tree that keeps it. -/
theorem makeAlong_again {parts : List String} (h : t.makeAlong here parts = (.ok (), t'))
    (hkeeps : Keeps t' t'') : t''.makeAlong here parts = (.ok (), t'') := by
  induction parts generalizing t here with
  | nil => rfl
  | cons part rest ih =>
    rw [makeAlong] at h
    split at h
    · cases h
    rename_i there hstep
    split at h
    · cases h
    rename_i made hmade
    have hgrown : Grown made t' := by
      have hrest := grown_makeAlong made there rest
      rwa [h] at hrest
    have hkept : Keeps t t'' := ((of_madeAt hmade).1.toKeeps.trans hgrown.toKeeps).trans hkeeps
    have hthere : t''.node? there = some .folder :=
      hkeeps.folder (hgrown.folder (of_madeAt hmade).2)
    rw [makeAlong, hkept.step, hstep]
    dsimp only
    rw [madeAt_of_folder hthere]
    exact ih h

/-- **Making a folder touches no file**, whether it works or not. -/
theorem grown_makeFolder (t : FileTree) (path : String) : Grown t (t.makeFolder path).2 := by
  unfold makeFolder
  split
  · exact .refl t
  dsimp only
  split
  · have hgrown := grown_makeAlong t [] (trimmed (parts path)).dropLast
    split <;> rename_i hmade <;> rwa [hmade] at hgrown
  · exact grown_makeAlong t [] (trimmed (parts path))

/-- **Making a folder again** changes nothing. -/
theorem makeFolder_again (h : t.makeFolder path = (.ok (), t')) (hkeeps : Keeps t' t'') :
    t''.makeFolder path = (.ok (), t'') := by
  have hgrown : Grown t t' := by
    have hgrown := grown_makeFolder t path
    rwa [h] at hgrown
  have hcheck := (hgrown.toKeeps.trans hkeeps).checkPath path
  unfold makeFolder at h ⊢
  split at h
  · cases h
  rename_i hpath
  rw [hcheck, hpath]
  dsimp only at h ⊢
  split at h
  · rename_i hdot
    rw [if_pos hdot]
    split at h
    · cases h
    · rename_i made hmade
      obtain ⟨hway, rfl⟩ := Prod.mk.inj h
      rw [makeAlong_again hmade hkeeps]
      obtain ⟨place, hwalk, hfolder⟩ := bind_eq_ok_iff.mp hway
      have hway' : (t''.walk [] (trimmed (parts path)) >>= t''.checkFolder) = .ok () :=
        bind_eq_ok_iff.mpr ⟨place, hkeeps.walk hwalk,
          checkFolder_eq_ok_iff.mpr (hkeeps.folder (checkFolder_eq_ok_iff.mp hfolder))⟩
      dsimp only
      rw [hway']
  · rename_i hdot
    rw [if_neg hdot]
    exact makeAlong_again h hkeeps

theorem makeAlong_failed {parts : List String} {e : Error}
    (h : t.makeAlong here parts = (.error e, t')) : t'.makeAlong here parts = (.error e, t') := by
  induction parts generalizing t here with
  | nil => cases h
  | cons part rest ih =>
    have hfirst := h
    rw [makeAlong] at h
    split at h
    · obtain ⟨-, rfl⟩ := Prod.mk.inj h
      exact hfirst
    rename_i there hstep
    split at h
    · obtain ⟨-, rfl⟩ := Prod.mk.inj h
      exact hfirst
    rename_i made hmade
    have hgrown : Grown made t' := by
      have hrest := grown_makeAlong made there rest
      rwa [h] at hrest
    have hkept : Keeps t t' := (of_madeAt hmade).1.toKeeps.trans hgrown.toKeeps
    rw [makeAlong, hkept.step, hstep]
    dsimp only
    rw [madeAt_of_folder (hgrown.folder (of_madeAt hmade).2)]
    exact ih h

/-- A folder that cannot be made cannot be made of what was left by the attempt either, and nothing
more is made. -/
theorem makeFolder_failed {e : Error} (h : t.makeFolder path = (.error e, t')) :
    t'.makeFolder path = (.error e, t') := by
  have hgrown : Grown t t' := by
    have hgrown := grown_makeFolder t path
    rwa [h] at hgrown
  have hcheck := hgrown.toKeeps.checkPath path
  unfold makeFolder at h ⊢
  split at h
  · rename_i hpath
    obtain ⟨he, rfl⟩ := Prod.mk.inj h
    cases he
    rw [hpath]
  rename_i hpath
  rw [hcheck, hpath]
  dsimp only at h ⊢
  split at h
  · rename_i hdot
    rw [if_pos hdot]
    split at h
    · rename_i hmade
      obtain ⟨he, rfl⟩ := Prod.mk.inj h
      cases he
      rw [makeAlong_failed hmade]
    · rename_i made hmade
      obtain ⟨hway, rfl⟩ := Prod.mk.inj h
      rw [makeAlong_again hmade (.refl made)]
      dsimp only
      rw [hway]
  · rename_i hdot
    rw [if_neg hdot]
    exact makeAlong_failed h

/-! ## 4. Writing files -/

theorem read_eq_ok_iff :
    t.read path = .ok content ↔ ∃ p, t.resolve path = .ok p ∧ t.node? p = some (.file content) := by
  simp only [read, bind_eq_ok_iff]
  refine exists_congr fun p => and_congr_right fun _ => ?_
  split
  · rename_i h
    rw [h, pure_eq_ok_iff, Option.some.injEq, FileNode.file.injEq]
  · rename_i h
    rw [h]
    exact ⟨fun h' => (by cases h'), fun h' => (by cases h')⟩
  · rename_i h
    rw [h]
    exact ⟨fun h' => (by cases h'), fun h' => (by cases h')⟩

theorem write_eq_ok_iff :
    t.write path content = .ok t' ↔
      ∃ p, t.resolve path = .ok p ∧ t.node? p ≠ some .folder ∧ t' = t.put p (.file content) := by
  simp only [write, bind_eq_ok_iff]
  refine exists_congr fun p => and_congr_right fun _ => ?_
  split
  · rename_i h
    exact ⟨fun h' => (by cases h'), fun h' => absurd h h'.1⟩
  · rename_i h
    rw [pure_eq_ok_iff, eq_comm]
    exact ⟨fun h' => ⟨h, h'⟩, fun h' => h'.2⟩

/-- A file takes the place of no folder. -/
theorem node?_put_file (h : t.node? p ≠ some .folder) :
    (t.put p (.file content)).node? q = if q = p then some (.file content) else t.node? q := by
  refine node?_put ?_ _
  rintro rfl
  exact h (node?_root t)

theorem keeps_put_file (h : t.node? p ≠ some .folder) :
    Keeps t (t.put p (.file content)) ∧ Keeps (t.put p (.file content)) t := by
  refine ⟨⟨rfl, fun {q} hq => ?_⟩, ⟨rfl, fun {q} hq => ?_⟩⟩
  · have hne : q ≠ p := by
      rintro rfl
      exact h hq
    rw [node?_put_file h, if_neg hne, hq]
  · rw [node?_put_file h] at hq
    split at hq
    · cases hq
    · exact hq

/-- **Writing a file** changes what is read at the paths that lead to its place, and at no other. -/
theorem read_put_file {path' : String} {found : Bytes} (hp : t.resolve path = .ok p)
    (h : t.node? p ≠ some .folder) :
    (t.put p (.file content)).read path' = .ok found ↔
      t.resolve path' = .ok p ∧ content = found ∨
        t.resolve path' ≠ .ok p ∧ t.read path' = .ok found := by
  have hkeeps : Keeps t (t.put p (.file content)) := (keeps_put_file h).1
  have hkeeps' : Keeps (t.put p (.file content)) t := (keeps_put_file h).2
  simp only [read_eq_ok_iff, node?_put_file h]
  constructor
  · rintro ⟨q, hq, hnode⟩
    have hq' := hkeeps'.resolve hq
    by_cases hqp : q = p
    · subst hqp
      rw [if_pos rfl, Option.some.injEq, FileNode.file.injEq] at hnode
      exact .inl ⟨hq', hnode⟩
    · rw [if_neg hqp] at hnode
      exact .inr ⟨fun hp' => hqp (Except.ok.inj (hq'.symm.trans hp')), q, hq', hnode⟩
  · rintro (⟨hq, rfl⟩ | ⟨hne, q, hq, hnode⟩)
    · exact ⟨p, hkeeps.resolve hq, if_pos rfl⟩
    · have hqp : q ≠ p := by
        rintro rfl
        exact hne hq
      exact ⟨q, hkeeps.resolve hq, by rw [if_neg hqp, hnode]⟩

/-- Making folders lets nothing be read that was not there, and takes nothing away. -/
theorem Grown.read (h : Grown t t') (hread : t.read path = .ok content) :
    t'.read path = .ok content := by
  obtain ⟨p, hp, hnode⟩ := read_eq_ok_iff.mp hread
  exact read_eq_ok_iff.mpr ⟨p, h.resolve hp, h.file.mpr hnode⟩

/-! ## 5. Paths into a folder -/

/-- A name that something in a folder can have: it has no slash and leads on. -/
structure IsName (name : String) : Prop where
  slash : '/' ∉ name.toList
  idle : isIdle name = false
  back : name ≠ ".."

theorem splitPath_ne_nil (cs : List Char) : splitPath cs ≠ [] := by
  cases cs with
  | nil => exact List.cons_ne_nil _ _
  | cons c rest =>
    rw [splitPath]
    split
    · exact List.cons_ne_nil _ _
    · split <;> exact List.cons_ne_nil _ _

theorem splitPath_of_not_mem {cs : List Char} (h : '/' ∉ cs) : splitPath cs = [cs] := by
  induction cs with
  | nil => rfl
  | cons c rest ih =>
    rw [List.mem_cons, not_or] at h
    rw [splitPath, if_neg (Ne.symm h.1), ih h.2]

theorem splitPath_append (cs ds : List Char) :
    splitPath (cs ++ '/' :: ds) = splitPath cs ++ splitPath ds := by
  induction cs with
  | nil => simp [splitPath]
  | cons c rest ih =>
    rw [List.cons_append, splitPath, splitPath, ih]
    split
    · rfl
    · obtain ⟨part, parts, hsplit⟩ := List.exists_cons_of_ne_nil (splitPath_ne_nil rest)
      rw [hsplit]
      rfl

theorem IsName.isAbsolute (h : IsName name) : isAbsolute name = false := by
  refine decide_eq_false fun hhead => h.slash ?_
  exact List.mem_of_mem_head? hhead

theorem IsName.parts (h : IsName name) : parts name = [name] := by
  rw [FileTree.parts, splitPath_of_not_mem h.slash, List.map_singleton, String.ofList_toList]

/-- The way to something in a folder is the way to the folder, and the name; a slash at the end
of the folder's path makes no difference. -/
theorem exists_parts_join (folder : String) (h : IsName name) :
    ∃ front, parts (join folder name) = front ++ [name] ∧
      (parts folder = front ∨ parts folder = front ++ [""]) := by
  rw [join, if_neg (by rw [h.isAbsolute]; decide)]
  split
  · rename_i hempty
    subst hempty
    exact ⟨[], h.parts, .inr rfl⟩
  split
  · rename_i hslash
    obtain ⟨cs, hcs⟩ := List.getLast?_eq_some_iff.mp hslash
    refine ⟨(splitPath cs).map String.ofList, ?_, .inr ?_⟩
    · rw [FileTree.parts, String.toList_append, hcs, List.append_assoc, List.singleton_append,
        splitPath_append, List.map_append]
      exact congrArg _ h.parts
    · rw [FileTree.parts, hcs, splitPath_append, List.map_append]
      rfl
  · refine ⟨FileTree.parts folder, ?_, .inl rfl⟩
    have hcs : (folder ++ "/" ++ name).toList = folder.toList ++ '/' :: name.toList := by
      simp
    rw [FileTree.parts, hcs, splitPath_append, List.map_append]
    exact congrArg _ h.parts

theorem walk_append_eq_ok_iff {front back : List String} :
    t.walk here (front ++ back) = .ok p ↔
      ∃ there, t.walk here front = .ok there ∧ t.walk there back = .ok p := by
  induction front generalizing here with
  | nil => simp [walk]
  | cons part rest ih =>
    simp only [List.cons_append, walk, bind_eq_ok_iff, ih]
    constructor
    · rintro ⟨⟨⟩, hfolder, next, hnext, there, hthere, hback⟩
      exact ⟨there, ⟨(), hfolder, next, hnext, hthere⟩, hback⟩
    · rintro ⟨there, ⟨⟨⟩, hfolder, next, hnext, hthere⟩, hback⟩
      exact ⟨(), hfolder, next, hnext, there, hthere, hback⟩

theorem walk_concat_eq_ok_iff {front : List String} {part : String} :
    t.walk here (front ++ [part]) = .ok p ↔
      ∃ there, t.walk here front = .ok there ∧ t.node? there = some .folder ∧
        t.step there part = .ok p := by
  rw [walk_append_eq_ok_iff]
  refine exists_congr fun there => and_congr_right fun _ => ?_
  simp only [walk, bind_eq_ok_iff]
  constructor
  · rintro ⟨⟨⟩, hfolder, next, hstep, hp⟩
    cases hp
    exact ⟨checkFolder_eq_ok_iff.mp hfolder, hstep⟩
  · rintro ⟨hfolder, hstep⟩
    exact ⟨(), checkFolder_eq_ok_iff.mpr hfolder, p, hstep, rfl⟩

theorem exists_join_eq (folder : String) (h : IsName name) :
    ∃ rest, join folder name = folder ++ rest := by
  rw [join, if_neg (by rw [h.isAbsolute]; decide)]
  split
  · rename_i hempty
    exact ⟨name, by rw [hempty, String.empty_append]⟩
  split
  · exact ⟨name, rfl⟩
  · exact ⟨"/" ++ name, String.append_assoc⟩

theorem checkPath_eq_ok_iff :
    t.checkPath path = .ok () ↔ '\x00' ∉ path.toList ∧ t.hasPath path := by
  unfold checkPath
  split
  · rename_i hnul
    rw [List.contains_iff_mem] at hnul
    exact ⟨fun h => (by cases h), fun h => absurd hnul h.1⟩
  rename_i hnul
  rw [List.contains_iff_mem] at hnul
  split
  · rename_i hsize
    exact ⟨fun h => (by cases h), fun h => by simp [h.2] at hsize⟩
  · rename_i hsize
    exact ⟨fun _ => ⟨hnul, by simpa using hsize⟩, fun _ => rfl⟩

/-- A path that leads on from another is refused if the other is. -/
theorem checkPath_of_append {rest : String} (h : t.checkPath (path ++ rest) = .ok ()) :
    t.checkPath path = .ok () := by
  rw [checkPath_eq_ok_iff] at h ⊢
  obtain ⟨hnul, hsize⟩ := h
  rw [String.toList_append, List.mem_append, not_or] at hnul
  refine ⟨hnul.1, ?_⟩
  unfold hasPath at hsize ⊢
  cases hlimits : t.limits with
  | none => rfl
  | some limits =>
    rw [hlimits, Option.all_some, decide_eq_true_iff, String.utf8ByteSize_append] at hsize
    rw [Option.all_some, decide_eq_true_iff]
    omega

theorem IsName.step_eq_ok_iff (h : IsName name) :
    t.step here name = .ok p ↔ t.hasName name ∧ here ++ [name] = p := by
  rw [step, h.idle, if_neg h.back]
  cases t.hasName name <;> simp

theorem step_idle : t.step here "" = .ok here := rfl

/-- **A path to something in a folder** leads to a place right behind that of the folder. -/
theorem resolve_join_eq_ok_iff {folder : String} (h : IsName name) :
    t.resolve (join folder name) = .ok p ↔
      t.checkPath (join folder name) = .ok () ∧ t.hasName name ∧
        ∃ there, t.resolve folder = .ok there ∧ t.node? there = some .folder ∧
          there ++ [name] = p := by
  obtain ⟨front, hparts, hfolder⟩ := exists_parts_join folder h
  -- with a slash at its end the folder's path has been walked up to the folder itself
  have hway : ∀ there,
      t.walk [] (FileTree.parts folder) = .ok there ∧ t.node? there = some .folder ↔
        t.walk [] front = .ok there ∧ t.node? there = some .folder := by
    intro there
    rcases hfolder with hfolder | hfolder
    · rw [hfolder]
    · rw [hfolder, walk_concat_eq_ok_iff]
      constructor
      · rintro ⟨⟨there', hwalk, hnode, hstep⟩, -⟩
        cases hstep
        exact ⟨hwalk, hnode⟩
      · rintro ⟨hwalk, hnode⟩
        exact ⟨⟨there, hwalk, hnode, step_idle⟩, hnode⟩
  simp only [resolve, bind_eq_ok_iff, hparts, walk_concat_eq_ok_iff, h.step_eq_ok_iff]
  constructor
  · rintro ⟨⟨⟩, hcheck, there, hwalk, hnode, hname, hp⟩
    obtain ⟨rest, hrest⟩ := exists_join_eq folder h
    obtain ⟨hwalk', -⟩ := (hway there).mpr ⟨hwalk, hnode⟩
    exact ⟨hcheck, hname, there, ⟨(), checkPath_of_append (hrest ▸ hcheck), hwalk'⟩, hnode, hp⟩
  · rintro ⟨hcheck, hname, there, ⟨⟨⟩, -, hwalk⟩, hnode, hp⟩
    obtain ⟨hwalk', -⟩ := (hway there).mp ⟨hwalk, hnode⟩
    exact ⟨(), hcheck, there, hwalk', hnode, hname, hp⟩

/-- In a folder without names there is nothing. -/
theorem node?_of_names_eq_nil {folder : String} (h : t.names folder = [])
    (hp : t.resolve folder = .ok p) (name : String) : t.node? (p ++ [name]) = none := by
  rw [names, hp] at h
  dsimp only at h
  have hinside := List.nil_perm.mp (h ▸ List.mergeSort_perm _ _)
  rw [node?, if_neg (List.append_ne_nil_of_right_ne_nil _ (List.cons_ne_nil _ _)),
    List.lookup_eq_none_iff]
  rintro ⟨⟨depth, q⟩, n⟩ he
  have hnone := List.filterMap_eq_nil_iff.mp hinside _ he
  rw [bne_iff_ne]
  intro hkey
  obtain rfl : p ++ [name] = q := congrArg Prod.snd hkey
  simp at hnone

/-! ## 6. Folders that are there -/

/-- A way to a folder starts in one. -/
theorem folder_of_walk {parts : List String} (hwalk : t.walk here parts = .ok p)
    (hp : t.node? p = some .folder) : t.node? here = some .folder := by
  cases parts with
  | nil =>
    cases hwalk
    exact hp
  | cons part rest =>
    obtain ⟨⟨⟩, hfolder, -⟩ := bind_eq_ok_iff.mp hwalk
    exact checkFolder_eq_ok_iff.mp hfolder

/-- Along a way to a folder there is nothing to make. -/
theorem makeAlong_of_walk {parts : List String} (hwalk : t.walk here parts = .ok p)
    (hp : t.node? p = some .folder) : t.makeAlong here parts = (.ok (), t) := by
  induction parts generalizing here with
  | nil => rfl
  | cons part rest ih =>
    simp only [walk, bind_eq_ok_iff] at hwalk
    obtain ⟨⟨⟩, -, there, hstep, hrest⟩ := hwalk
    rw [makeAlong, hstep]
    dsimp only
    rw [madeAt_of_folder (folder_of_walk hrest hp)]
    exact ih hrest

theorem eq_of_walk_idle {parts : List String} (hparts : ∀ part ∈ parts, isIdle part = true)
    (hwalk : t.walk here parts = .ok p) : p = here := by
  induction parts with
  | nil =>
    cases hwalk
    rfl
  | cons part rest ih =>
    simp only [walk, bind_eq_ok_iff, step, hparts part List.mem_cons_self, if_true] at hwalk
    obtain ⟨⟨⟩, -, there, hthere, hrest⟩ := hwalk
    cases hthere
    exact ih (fun part hpart => hparts part (List.mem_cons_of_mem _ hpart)) hrest

/-- The parts that are left out of a way lead nowhere. -/
theorem exists_trimmed_append (parts : List String) :
    ∃ rest, parts = trimmed parts ++ rest ∧ ∀ part ∈ rest, isIdle part = true := by
  refine ⟨(parts.reverse.takeWhile isIdle).reverse, ?_, fun part hpart => ?_⟩
  · rw [trimmed, ← List.reverse_append, List.takeWhile_append_dropWhile, List.reverse_reverse]
  · exact List.all_eq_true.mp List.all_takeWhile part (List.mem_reverse.mp hpart)

/-- **Making a folder that is there** changes nothing. -/
theorem makeFolder_of_folder (hpath : t.resolve path = .ok p) (hp : t.node? p = some .folder) :
    t.makeFolder path = (.ok (), t) := by
  simp only [resolve, bind_eq_ok_iff] at hpath
  obtain ⟨⟨⟩, hcheck, hwalk⟩ := hpath
  obtain ⟨rest, hrest, hidle⟩ := exists_trimmed_append (parts path)
  rw [hrest, walk_append_eq_ok_iff] at hwalk
  obtain ⟨there, hway, hback⟩ := hwalk
  obtain rfl := eq_of_walk_idle hidle hback
  rw [makeFolder, hcheck]
  dsimp only
  split
  · have hfront : t.makeAlong [] (trimmed (parts path)).dropLast = (.ok (), t) := by
      rcases List.eq_nil_or_concat (trimmed (parts path)) with hnil | ⟨front, last, hlast⟩
      · rw [hnil]
        rfl
      · rw [hlast, List.concat_eq_append, walk_concat_eq_ok_iff] at hway
        obtain ⟨before, hbefore, hfolder, -⟩ := hway
        rw [hlast, List.concat_eq_append, List.dropLast_concat]
        exact makeAlong_of_walk hbefore hfolder
    rw [hfront]
    dsimp only
    rw [bind_eq_ok_iff.mpr ⟨p, hway, checkFolder_eq_ok_iff.mpr hp⟩]
  · exact makeAlong_of_walk hway hp

end ScriptBundle.FileTree

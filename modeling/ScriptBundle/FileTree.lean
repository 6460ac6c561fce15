/-
# Folders and files

A tree of folders and files is a value: what is at every place that something is at.  Reading
looks a place up and writing gives a new tree.  A path leads to a place by way of folders: each of
its parts is looked for in the folder that the parts before it lead to, `.` stays there, and `..`
goes back, from the root to the root.

Every path leads from the root of the tree, whether it starts with a slash or not: the root is also
the folder that relative paths are relative to.  What an absolute path differs in is that it does
not lead on from another folder (`FileTree.join`).

Writing a file or removing one either happens or changes nothing.  Making a folder is different:
the folders on the way to it are made one after the other, and those that were made before one
could not be stay.  So `makeFolder` gives a tree in either case.

What cannot be done has a cause (`FileTree.Error`), but only one cause is told apart by anybody:
whether a path leads to a place where nothing is.

A tree may bound the size of its names and of the paths that lead through it.  A long path is
refused as such.  A long name is refused by the folder it is looked for in, and so only where that
folder exists.
-/
import ScriptBundle.Bytes

namespace ScriptBundle

/-! ## 1. Trees -/

/-- A place: the names of the folders that enclose it and its own, from the root on. -/
abbrev Place := List String

/-- A place with its depth, which alone tells most places apart. -/
def Place.key (place : Place) : Nat × Place := (place.length, place)

@[simp] theorem Place.key_inj {p q : Place} : p.key = q.key ↔ p = q := by
  constructor
  · exact fun h => congrArg Prod.snd h
  · exact fun h => congrArg Place.key h

/-- What is at a place. -/
inductive FileNode
  | file (content : Bytes)
  | folder
deriving DecidableEq

/-- How many bytes names and paths have at most. -/
structure FileTree.Limits where
  name : Nat
  path : Nat

/-- A tree of folders and files.  The root is a folder and is not listed. -/
structure FileTree where
  limits : Option FileTree.Limits
  nodes : List ((Nat × Place) × FileNode)

namespace FileTree

/-- The tree with nothing in it. -/
def empty (limits : Option Limits) : FileTree := ⟨limits, []⟩

instance : Inhabited FileTree := ⟨empty none⟩

/-- What is at a place. -/
def node? (t : FileTree) (place : Place) : Option FileNode :=
  if place = [] then some .folder else t.nodes.lookup place.key

/-- The tree with nothing at a place. -/
def clear (t : FileTree) (place : Place) : FileTree :=
  let key := place.key
  { t with nodes := t.nodes.filter (·.1 ≠ key) }

/-- The tree with a node put at a place. -/
def put (t : FileTree) (place : Place) (n : FileNode) : FileTree :=
  { t with nodes := (place.key, n) :: (t.clear place).nodes }

/-- Whether a name is as short as it has to be. -/
def hasName (t : FileTree) (name : String) : Bool :=
  t.limits.all fun limits => name.utf8ByteSize ≤ limits.name

/-- Whether a path is as short as it has to be. -/
def hasPath (t : FileTree) (path : String) : Bool :=
  t.limits.all fun limits => path.utf8ByteSize ≤ limits.path

/-! ## 2. Paths -/

/-- Why something cannot be done at a path. -/
inductive Error
  /-- Nothing is there. -/
  | notFound
  /-- A path goes on behind something that is no folder. -/
  | notFolder
  /-- A folder is where a file is asked for. -/
  | isFolder
  /-- No file can have this name or this path. -/
  | badName
deriving DecidableEq, Repr

/-- A path that starts with a slash. -/
def isAbsolute (path : String) : Bool := path.toList.head? = some '/'

/-- The path that leads on from a folder.  An absolute path starts again at the root. -/
def join (folder path : String) : String :=
  if isAbsolute path then path
  else if folder = "" then path
  else if folder.toList.getLast? = some '/' then folder ++ path
  else folder ++ "/" ++ path

/-- The parts between slashes. -/
def splitPath : List Char → List (List Char)
  | [] => [[]]
  | c :: rest =>
    if c = '/' then [] :: splitPath rest
    else
      match splitPath rest with
      | [] => [[c]]
      | part :: parts => (c :: part) :: parts

/-- The parts of a path. -/
def parts (path : String) : List String := (splitPath path.toList).map String.ofList

/-- The path of some parts. -/
def ofParts (parts : List String) : String := "/".intercalate parts

/-- A part that leads nowhere. -/
def isIdle (part : String) : Bool := part = "" || part = "."

/-- Parts up to the last one that leads somewhere. -/
def trimmed (parts : List String) : List String :=
  (parts.reverse.dropWhile isIdle).reverse

/-- The path of the folder that a path's last part is looked for in. -/
def parent (path : String) : String := ofParts (trimmed (trimmed (parts path)).dropLast)

/-- A path as it is shown in relation to the folder it leads on from: without the parts at its
ends that lead nowhere.  An absolute path is shown as it is. -/
def shown (path : String) : String :=
  if isAbsolute path then path else ofParts (trimmed ((parts path).dropWhile isIdle))

/-! ## 3. Ways -/

/-- Refuses a path that no file can have. -/
def checkPath (t : FileTree) (path : String) : Except Error Unit :=
  if path.toList.contains '\x00' then .error .badName
  else if !t.hasPath path then .error .badName
  else .ok ()

/-- Refuses what is not a folder. -/
def checkFolder (t : FileTree) (place : Place) : Except Error Unit :=
  match t.node? place with
  | some .folder => .ok ()
  | some (.file _) => .error .notFolder
  | none => .error .notFound

/-- The place that a part leads to from a folder. -/
def step (t : FileTree) (here : Place) (part : String) : Except Error Place :=
  if isIdle part then .ok here
  else if part = ".." then .ok here.dropLast
  else if t.hasName part then .ok (here ++ [part])
  else .error .badName

/-- The place that parts lead to from another place. -/
def walk (t : FileTree) : Place → List String → Except Error Place
  | here, [] => .ok here
  | here, part :: rest => do
    t.checkFolder here
    walk t (← t.step here part) rest

/-- The place that a path leads to. -/
def resolve (t : FileTree) (path : String) : Except Error Place := do
  t.checkPath path
  t.walk [] (parts path)

/-! ## 4. Files -/

/-- The content of a file. -/
def read (t : FileTree) (path : String) : Except Error Bytes := do
  match t.node? (← t.resolve path) with
  | some (.file content) => return content
  | some .folder => throw .isFolder
  | none => throw .notFound

/-- The tree with a file of some content; the folder it is in has to be there. -/
def write (t : FileTree) (path : String) (content : Bytes) : Except Error FileTree := do
  let place ← t.resolve path
  match t.node? place with
  | some .folder => throw .isFolder
  | _ => return t.put place (.file content)

/-- Whether a path leads to a file. -/
def isFile (t : FileTree) (path : String) : Bool :=
  match t.read path with
  | .ok _ => true
  | .error _ => false

/-- The tree without a file. -/
def remove (t : FileTree) (path : String) : Except Error FileTree := do
  let place ← t.resolve path
  match t.node? place with
  | some (.file _) => return t.clear place
  | some .folder => throw .isFolder
  | none => throw .notFound

/-! ## 5. Folders -/

/-- The tree with a folder where nothing was. -/
def madeAt (t : FileTree) (place : Place) : Except Error FileTree :=
  match t.node? place with
  | some .folder => .ok t
  | some (.file _) => .error .notFolder
  | none => .ok (t.put place .folder)

/-- Makes whichever folders are missing on the way that parts lead from a folder. -/
def makeAlong (t : FileTree) : Place → List String → Except Error Unit × FileTree
  | _, [] => (.ok (), t)
  | here, part :: rest =>
    match t.step here part with
    | .error e => (.error e, t)
    | .ok there =>
      match t.madeAt there with
      | .error e => (.error e, t)
      | .ok t => makeAlong t there rest

/-- Makes a folder, and whichever of the folders on the way to it are missing.  A path that ends
in `.` asks for something in the folder before the `.`, which is then not made itself. -/
def makeFolder (t : FileTree) (path : String) : Except Error Unit × FileTree :=
  match t.checkPath path with
  | .error e => (.error e, t)
  | .ok () =>
    let way := trimmed (parts path)
    if (parts path).reverse.find? (· ≠ "") = some "." then
      match t.makeAlong [] way.dropLast with
      | (.error e, t) => (.error e, t)
      | (.ok (), t) => (t.walk [] way >>= t.checkFolder, t)
    else t.makeAlong [] way

/-- Puts a file of some content at a path, and makes whichever folders are missing around it. -/
def place (t : FileTree) (path : String) (content : Bytes) : Except Error Unit × FileTree :=
  match t.makeFolder (parent path) with
  | (.error e, t) => (.error e, t)
  | (.ok (), t) =>
    match t.write path content with
    | .error e => (.error e, t)
    | .ok t => (.ok (), t)

/-- The names of what is in a folder, in order. -/
def names (t : FileTree) (path : String) : List String :=
  match t.resolve path with
  | .ok place =>
    let inside := t.nodes.filterMap fun ((_, p), _) =>
      match p.getLast? with
      | some name => if p.dropLast = place then some name else none
      | none => none
    inside.mergeSort (· ≤ ·)
  | .error _ => []

end FileTree

end ScriptBundle

/-!
# Directories

What a program can read: a tree of files and folders, and the folder of it in which the program
works. A path is followed name by name, from the root of the tree if it begins with a slash and from
the working folder if it does not, to the file that may be read there.
-/

namespace LoxLexer

/-- What can be read under each path: the bytes of a file, or nothing. -/
abbrev Reader := String → Option ByteArray

/-! ## 1. Trees -/

/-- Whether a text can be the name of a node in a folder. The empty text and a dot stand for the
folder itself, two dots for the one above it, a slash parts names, and a null character ends a path. -/
def IsName (text : String) : Prop :=
  text ≠ "" ∧ text ≠ "." ∧ text ≠ ".." ∧ '/' ∉ text.toList ∧ '\x00' ∉ text.toList

instance : DecidablePred IsName := fun text =>
  inferInstanceAs (Decidable (text ≠ "" ∧ text ≠ "." ∧ text ≠ ".." ∧ '/' ∉ text.toList
    ∧ '\x00' ∉ text.toList))

/-- Where a node stands in a tree: the names that lead to it from the root, the last one first. -/
abbrev Place := List (Subtype IsName)

inductive Node
  | file (contents : ByteArray)
  | folder

/-- A tree of files and folders, and the folder of it in which a program works. There is at most one
node at each place, and what stands in something stands in a folder. -/
structure Directory where
  node? : Place → Option Node
  working : Place
  root_eq : node? [] = some .folder
  above_eq : ∀ name place, node? (name :: place) ≠ none → node? place = some .folder
  working_eq : node? working = some .folder

namespace Directory

def isFolder (dir : Directory) (place : Place) : Bool :=
  match dir.node? place with
  | some .folder => true
  | _ => false

def file? (dir : Directory) (place : Place) : Option ByteArray :=
  match dir.node? place with
  | some (.file contents) => some contents
  | _ => none

theorem isFolder_iff {dir : Directory} {place : Place} :
    dir.isFolder place = true ↔ dir.node? place = some .folder := by
  rw [isFolder]
  split <;> simp_all

/-! ## 2. Reading files -/

/-- The texts between the slashes of a path. Two slashes in a row, or one at an end, enclose an
empty one. -/
def names (path : String) : List String :=
  (path.toList.splitOn '/').map String.ofList

/-- The place to which a text between slashes leads. Nothing leads on from a file, and going up from
the root leads back to it. -/
def enter? (dir : Directory) (here : Place) (name : String) : Option Place :=
  if dir.isFolder here then
    if name = "" ∨ name = "." then some here
    else if name = ".." then some here.tail
    else if h : IsName name then some (⟨name, h⟩ :: here)
    else none
  else none

def follow? (dir : Directory) (here : Place) : List String → Option Place
  | [] => some here
  | name :: rest =>
    match dir.enter? here name with
    | some there => dir.follow? there rest
    | none => none

/-- Where a path begins. -/
def start (dir : Directory) (path : String) : Place :=
  if path.startsWith "/" then [] else dir.working

def pathLimit : Nat := 4096

/-- The place that a path names. A path that is too long names none. -/
def place? (dir : Directory) (path : String) : Option Place :=
  if path.utf8ByteSize < pathLimit then dir.follow? (dir.start path) (names path) else none

def read? (dir : Directory) : Reader := fun path =>
  (dir.place? path).bind dir.file?

/-- A directory can stand for what is read in it. -/
instance : Coe Directory Reader := ⟨read?⟩

/-! ## 3. Adding files and folders -/

section Put

variable {dir : Directory} {node : Node} {name : Subtype IsName} {above place : Place}

/-- What stands where, with a node in a place of its own. -/
def nodeWith? (dir : Directory) (node : Node) (own place : Place) : Option Node :=
  if place = own then some node else dir.node? place

theorem nodeWith?_of_folder {own : Place} (hown : dir.isFolder own = false)
    (h : dir.node? place = some .folder) : dir.nodeWith? node own place = some .folder := by
  rw [nodeWith?, if_neg, h]
  rintro rfl
  exact absurd (isFolder_iff.mpr h) (by simp [hown])

theorem nodeWith?_above (habove : dir.isFolder above = true)
    (hown : dir.isFolder (name :: above) = false) (other : Subtype IsName)
    (h : dir.nodeWith? node (name :: above) (other :: place) ≠ none) :
    dir.nodeWith? node (name :: above) place = some .folder := by
  apply nodeWith?_of_folder hown
  by_cases hother : other :: place = name :: above
  · rw [(List.cons.inj hother).2]
    exact isFolder_iff.mp habove
  · rw [nodeWith?, if_neg hother] at h
    exact dir.above_eq other place h

end Put

/-- The directory with a node in a place, unless the place is in no folder or a folder is there. -/
def put (dir : Directory) (node : Node) : Place → Directory
  | [] => dir
  | name :: above =>
    if h : dir.isFolder above = true ∧ dir.isFolder (name :: above) = false then
      { node? := dir.nodeWith? node (name :: above)
        working := dir.working
        root_eq := nodeWith?_of_folder h.2 dir.root_eq
        above_eq := fun other _ hother => nodeWith?_above h.1 h.2 other hother
        working_eq := nodeWith?_of_folder h.2 dir.working_eq }
    else dir

/-- Follows names, and makes every folder that is missing on the way, also one that is left again by
going up. -/
def makeWay? (dir : Directory) (here : Place) : List String → Option (Directory × Place)
  | [] => some (dir, here)
  | name :: rest =>
    match dir.enter? here name with
    | some there =>
      let made := if (dir.node? there).isSome then dir else dir.put .folder there
      made.makeWay? there rest
    | none => none

def addFolder (dir : Directory) (path : String) : Directory :=
  match dir.makeWay? (dir.start path) (names path) with
  | some (made, _) => made
  | none => dir

/-- The directory with a file under a path, instead of a file that was there. -/
def addFile (dir : Directory) (path : String) (contents : ByteArray) : Directory :=
  match dir.makeWay? (dir.start path) (names path).dropLast with
  | some (made, here) =>
    match made.enter? here ((names path).getLastD "") with
    | some place => made.put (.file contents) place
    | none => dir
  | none => dir

def workingName : Subtype IsName := ⟨"work", by decide⟩

/-- The directory in which there is nothing but the working folder, which stands in the root. -/
def bare : Directory where
  node? place := if place = [] ∨ place = [workingName] then some .folder else none
  working := [workingName]
  root_eq := rfl
  above_eq name place h := by
    have hplace : place = [] := by
      by_cases hwork : name :: place = [workingName]
      · exact (List.cons.inj hwork).2
      · simp [hwork] at h
    rw [hplace]
    rfl
  working_eq := rfl

/-- The directory in which a working folder holds folders and files under the given paths. -/
def ofEntries (folders : List String) (files : List (String × ByteArray)) : Directory :=
  files.foldl (fun dir entry => dir.addFile entry.1 entry.2) (folders.foldl addFolder bare)

end Directory

end LoxLexer

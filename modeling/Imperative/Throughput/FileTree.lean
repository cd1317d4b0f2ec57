/-!
# File trees

A tree of directories and text files, for saving reports without a disk.  Saving a text
makes the directories on the way to it that do not exist.  It fails if something on the
way is a file, if the place itself is a directory, or if the path or a name on it is
longer than a file system takes.  The directories made before it fails stay.

A path is read from its text: names are separated by slashes, an empty name and a single
dot mean nothing, and two dots lead up.  A path that begins with a slash starts at the
top of the tree, any other one where the reader stands.  The way is walked name by name,
so a directory that is only passed through on the way up again is made all the same.
-/

namespace Imperative
namespace Throughput

/-- A file with its text, or a directory with what it holds, by name. -/
inductive FileTree where
  | file (text : String)
  | directory (entries : List (String × FileTree))
deriving Repr, Inhabited

/-- A place in a tree: the names on the way to it from the top. -/
abbrev Place := List String

/-- Where a name leads from a place. -/
def Place.step (p : Place) (name : String) : Place :=
  if name = ".." then p.dropLast else p ++ [name]

/-- Why a text cannot be saved. -/
inductive SaveError where
  | notFound
  | notADirectory
  | isADirectory
  | nameTooLong
deriving DecidableEq, Repr, Inhabited

/-- The text of a reason. -/
def SaveError.message : SaveError → String
  | .notFound => "No such file or directory"
  | .notADirectory => "Not a directory"
  | .isADirectory => "Is a directory"
  | .nameTooLong => "File name too long"

/-! ## Paths -/

/-- The longest name, in bytes. -/
def nameLimit : Nat := 255

/-- The longest path, in bytes. -/
def pathLimit : Nat := 4095

/-- Whether a name on a path means nothing. -/
def isIdle (name : String) : Bool := name.isEmpty || name = "."

/-- The names on a path that mean something. -/
def pathNames (path : String) : List String :=
  (path.splitOn "/").filter fun name => !isIdle name

/-- A path without its last name, and without what means nothing before and after that
name: the path of the directory that the last name is looked up in. -/
def parentPath (path : String) : String :=
  let backwards := (path.splitOn "/").reverse.dropWhile isIdle
  "/".intercalate (backwards.tail.dropWhile isIdle).reverse

/-- Where a path starts, for a reader who stands at `here`. -/
def origin (here : Place) (path : String) : Place := if path.startsWith "/" then [] else here

/-- Whether a path can only lead to a directory, by the way it is written. -/
def leadsToDirectory (path : String) : Bool :=
  match (path.splitOn "/").getLast? with
  | some last => last.isEmpty || last = "." || last = ".."
  | none => true

namespace FileTree

/-! ## One level of a tree -/

/-- What a directory holds under a name. -/
def child? : FileTree → String → Option FileTree
  | directory entries, name => (entries.find? (·.1 = name)).map (·.2)
  | file _, _ => none

/-- Puts something into a directory under a name. -/
def setChild : FileTree → String → FileTree → FileTree
  | directory entries, name, t => directory ((name, t) :: entries.filter (·.1 ≠ name))
  | file text, _, _ => file text

theorem child?_setChild (entries : List (String × FileTree)) (name : String) (t : FileTree) :
    ((directory entries).setChild name t).child? name = some t := by
  simp [setChild, child?]

theorem child?_setChild_of_ne (entries : List (String × FileTree)) {name other : String}
    (t : FileTree) (h : name ≠ other) :
    ((directory entries).setChild name t).child? other = (directory entries).child? other := by
  simp only [setChild, child?]
  rw [List.find?_cons_of_neg (by simpa using h), List.find?_filter]
  congr 2
  funext e
  by_cases he : e.1 = other <;> simp [he, h.symm]

/-! ## Places in a tree -/

/-- What is at a place. -/
def get? : FileTree → Place → Option FileTree
  | t, [] => some t
  | t, name :: rest => (t.child? name).bind (·.get? rest)

/-- Makes a directory at a place, and those above it, unless they exist. -/
def makeDirectory : FileTree → Place → Except SaveError FileTree
  | file _, _ => .error .notADirectory
  | directory entries, [] => .ok (directory entries)
  | t, name :: rest =>
    (((t.child? name).getD (directory [])).makeDirectory rest).map fun c => t.setChild name c

/-- Puts a file at a place, where there may be a file already; `none` is a place with
nothing at it. -/
def write (text : String) : Option FileTree → Place → Except SaveError FileTree
  | some (directory _), [] => .error .isADirectory
  | _, [] => .ok (file text)
  | some (file _), _ => .error .notADirectory
  | none, _ => .error .notFound
  | some t, name :: rest => (write text (t.child? name) rest).map fun c => t.setChild name c

/-! ## Paths in a tree -/

/-- Goes along names from a place, and makes the directories that are missing.  The tree
is what it has become when the walk ends or fails. -/
def enter (t : FileTree) (p : Place) : List String → Except SaveError Place × FileTree
  | [] => (.ok p, t)
  | name :: rest =>
    if nameLimit < name.utf8ByteSize then (.error .nameTooLong, t)
    else
      match t.makeDirectory (p.step name) with
      | .ok t => enter t (p.step name) rest
      | .error e => (.error e, t)

/-- Saves a text under the last name of a path, whose directory is `p`. -/
def saveAt (t : FileTree) (p : Place) (path text : String) : Except SaveError FileTree :=
  let last := (pathNames path).getLast?.toList
  if pathLimit < path.utf8ByteSize || last.any (nameLimit < ·.utf8ByteSize) then
    .error .nameTooLong
  else if leadsToDirectory path then .error .isADirectory
  else write text (some t) (p ++ last)

/-- Saves a text at a path, making directories as needed. -/
def save (t : FileTree) (here : Place) (path text : String) :
    Except SaveError Unit × FileTree :=
  if pathLimit < (parentPath path).utf8ByteSize then (.error .nameTooLong, t)
  else
    match t.enter (origin here path) (pathNames path).dropLast with
    | (.error e, t) => (.error e, t)
    | (.ok p, t) =>
      match t.saveAt p path text with
      | .ok t => (.ok (), t)
      | .error e => (.error e, t)

/-- Goes along names from a place as long as there are directories to go along. -/
def follow (t : FileTree) (p : Place) : List String → Option Place
  | [] => some p
  | name :: rest =>
    match t.get? p with
    | some (directory _) => follow t (p.step name) rest
    | _ => none

/-- The text of the file that a path leads to. -/
def read? (t : FileTree) (here : Place) (path : String) : Option String :=
  if pathLimit < path.utf8ByteSize || leadsToDirectory path then none
  else
    match (t.follow (origin here path) (pathNames path)).bind t.get? with
    | some (file text) => some text
    | _ => none

end FileTree

end Throughput
end Imperative

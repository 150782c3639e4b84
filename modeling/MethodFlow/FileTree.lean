import MethodFlow.TreePath

/-!
# Trees of files

A directory with everything below it, as a value. A path is followed part by part from the top. This
fails in the way that a file system reports: on the way there something is missing, or is a file
where a directory is needed. A path may also lead out of the tree, to the directories above its top.
-/

namespace MethodFlow

/-- Why something in a tree cannot be read or made. -/
inductive FileFault where
  | notFound
  | alreadyThere
  | notDirectory
  | isDirectory
  | nameTooLong
  | nulInPath
  | notText
  deriving DecidableEq

namespace FileFault

def message : FileFault → String
  | notFound => "No such file or directory (os error 2)"
  | alreadyThere => "File exists (os error 17)"
  | notDirectory => "Not a directory (os error 20)"
  | isDirectory => "Is a directory (os error 21)"
  | nameTooLong => "File name too long (os error 36)"
  | nulInPath => "file name contained an unexpected NUL byte"
  | notText => "stream did not contain valid UTF-8"

end FileFault

/-- Where a path leads: names one below the other, from the top or from what is above it. Nothing is
known of what is above, so all its directories count as one. -/
structure Place where
  above : Bool := false
  names : List String := []
  deriving DecidableEq

namespace Place

def child (place : Place) (name : String) : Place := { place with names := place.names ++ [name] }

def up (place : Place) : Place :=
  if place.names.isEmpty then { above := true } else { place with names := place.names.dropLast }

end Place

/-- What stands at a place. -/
inductive FileEntry where
  | directory
  | file (bytes : ByteArray)

/-- A directory with everything below it. -/
structure FileTree where
  /-- The name of the top directory, which is shown in front of every path. -/
  top : String
  /-- All that has been put in, by place. -/
  entries : List (Place × FileEntry) := []

namespace FileTree

/-- The most bytes that a name may have. -/
def nameLimit : Nat := 255

/-- The most bytes that a path as a whole may have. -/
def pathLimit : Nat := 4095

/-- A path as it is shown. -/
def shown (t : FileTree) (path : TreePath) : String := "/".intercalate (t.top :: path.parts)

/-- What is recorded at a place. The top is a directory, and so is what is above it. -/
def at? (t : FileTree) (place : Place) : Option FileEntry :=
  if place.names.isEmpty then some .directory else t.entries.lookup place

/-- Follows one part of a path. A name leads to its place also when nothing is there yet. -/
def follow (t : FileTree) (place : Place) (part : String) : Except FileFault Place :=
  match t.at? place with
  | none => .error .notFound
  | some (.file _) => .error .notDirectory
  | some .directory =>
    if TreePath.isIdle part then .ok place
    else if part == TreePath.upward then .ok place.up
    else if nameLimit < part.utf8ByteSize then .error .nameTooLong
    else .ok (place.child part)

/-- The place that a path leads to. -/
def locate (t : FileTree) (path : TreePath) : Except FileFault Place :=
  if path.parts.any (·.contains '\x00') then .error .nulInPath
  else if pathLimit < (t.shown path).utf8ByteSize then .error .nameTooLong
  else path.parts.foldlM t.follow {}

/-- What stands at a path, or why it cannot be reached. -/
def find (t : FileTree) (path : TreePath) : Except FileFault FileEntry :=
  match t.locate path with
  | .error fault => .error fault
  | .ok place =>
    match t.at? place with
    | some entry => .ok entry
    | none => .error .notFound

/-- Whether there is a file or a directory at a path. -/
def contains (t : FileTree) (path : TreePath) : Bool := (t.find path).toBool

/-- Whether there is a directory at a path. -/
def hasDirectory (t : FileTree) (path : TreePath) : Bool :=
  match t.find path with
  | .ok .directory => true
  | _ => false

/-- The text of a file. -/
def readText (t : FileTree) (path : TreePath) : Except FileFault String :=
  match t.find path with
  | .error fault => .error fault
  | .ok .directory => .error .isDirectory
  | .ok (.file bytes) =>
    match String.fromUTF8? bytes with
    | some text => .ok text
    | none => .error .notText

/-- Puts an entry at a place, instead of what was there. -/
def set (t : FileTree) (place : Place) (entry : FileEntry) : FileTree :=
  { t with entries := (place, entry) :: t.entries.filter (·.1 != place) }

/-- Makes one directory, in a directory that is there. The path may end in a slash. -/
def makeOne (t : FileTree) (path : TreePath) : Except FileFault FileTree :=
  match t.locate path.withoutSlash with
  | .error fault => .error fault
  | .ok place => if (t.at? place).isSome then .error .alreadyThere else .ok (t.set place .directory)

/-- Makes a directory. If something on the way to it is missing, the parent of the path is made
first. Gives the tree as it is then, and whether there is a directory at the path. -/
def makeDirectory (t : FileTree) (path : TreePath) : FileTree × Bool :=
  let make (t : FileTree) : FileTree × Bool :=
    match t.makeOne path with
    | .ok t => (t, true)
    | .error _ => (t, t.hasDirectory path)
  if h : path.isTop then make t
  else
    match t.makeOne path with
    | .error .notFound =>
      have := TreePath.length_parent_lt h
      let (t, made) := t.makeDirectory path.parent
      if made then make t else (t, false)
    | _ => make t
termination_by path.parts.length

/-- Writes a file into a directory that is there; `none` if it is not, or if a directory has that
name. -/
def write? (t : FileTree) (path : TreePath) (bytes : ByteArray) : Option FileTree :=
  match t.locate path with
  | .error _ => none
  | .ok place =>
    match t.at? place with
    | some .directory => none
    | _ => if path.endsInName then some (t.set place (.file bytes)) else none

/-- Removes a file; `none` if there is none. -/
def removeFile? (t : FileTree) (path : TreePath) : Option FileTree :=
  match t.locate path with
  | .error _ => none
  | .ok place =>
    match t.at? place with
    | some (.file _) => some { t with entries := t.entries.filter (·.1 != place) }
    | _ => none

end FileTree

end MethodFlow

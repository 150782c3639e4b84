/-!
# Paths

A path is kept as it is written, cut at its slashes, since that is how it is shown. An empty part
and a single point stand for the directory they are in, and two points for the one above it; what
they lead to is for the tree of files to say.

`parent` and `child` work on the written path alone. A parent is always shorter
(`length_parent_lt`), so going from parent to parent comes to an end.
-/

namespace MethodFlow

/-- A written path below the top of a tree. No parts at all are the top itself. -/
structure TreePath where
  parts : List String
  deriving DecidableEq

namespace TreePath

/-- The path that a text spells. -/
def ofText (text : String) : TreePath := ⟨if text.isEmpty then [] else text.splitOn "/"⟩

/-- The part that stands for the directory above. -/
def upward : String := ".."

/-- Whether a part stands for the directory that it is in. -/
def isIdle (part : String) : Bool := part == "" || part == "."

/-- A list without the members at its end that satisfy `p`. -/
def dropEnd (p : String → Bool) (parts : List String) : List String :=
  (parts.reverse.dropWhile p).reverse

/-- The path without idle parts at its end. -/
def trim (path : TreePath) : TreePath := ⟨dropEnd isIdle path.parts⟩

/-- The path without slashes at its end. -/
def withoutSlash (path : TreePath) : TreePath := ⟨dropEnd (· == "") path.parts⟩

/-- Whether nothing but idle parts are written. -/
def isTop (path : TreePath) : Bool := path.trim.parts.isEmpty

/-- The path without the last part that counts. -/
def parent (path : TreePath) : TreePath := trim ⟨path.trim.parts.dropLast⟩

/-- The path of a name in the directory that a path leads to. A slash at the end is not doubled. -/
def child (path : TreePath) (name : String) : TreePath :=
  ⟨(if path.parts.getLast? == some "" then path.parts.dropLast else path.parts) ++ [name]⟩

/-- Whether the last part is the name of something. -/
def endsInName (path : TreePath) : Bool :=
  path.parts.getLast?.any fun part => !isIdle part && part != upward

theorem length_dropEnd_le (p : String → Bool) (parts : List String) :
    (dropEnd p parts).length ≤ parts.length := by
  unfold dropEnd
  rw [List.length_reverse]
  have h := (List.dropWhile_suffix p (l := parts.reverse)).length_le
  rwa [List.length_reverse] at h

/-- Parents are shorter, so going up ends. -/
theorem length_parent_lt {path : TreePath} (h : ¬ path.isTop) :
    path.parent.parts.length < path.parts.length := by
  have hle : path.trim.parts.length ≤ path.parts.length := length_dropEnd_le isIdle path.parts
  have hparent : path.parent.parts.length ≤ path.trim.parts.dropLast.length :=
    length_dropEnd_le isIdle path.trim.parts.dropLast
  have hpos : path.trim.parts.length ≠ 0 := by
    intro h0
    exact h (List.isEmpty_iff.mpr (List.length_eq_zero_iff.mp h0))
  rw [List.length_dropLast] at hparent
  omega

/-- The path and its parents, up to the top. -/
def lineage (path : TreePath) : List TreePath :=
  if h : path.isTop then [path]
  else
    have := length_parent_lt h
    path :: lineage path.parent
termination_by path.parts.length

end TreePath

end MethodFlow
